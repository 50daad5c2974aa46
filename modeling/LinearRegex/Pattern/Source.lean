/-!
# The unread part of a pattern

The characters of a pattern that are still to be read, with the byte offset at which they begin.
Reading never gives characters back: what is left is never longer than before.
-/

namespace LinearRegex

/-- The unread part of a pattern. -/
structure Source where
  /-- How many bytes have been read. -/
  offset : Nat
  rest : List Char
deriving DecidableEq, Inhabited

namespace Source

/-- A whole text, unread. -/
def ofString (s : String) : Source := ⟨0, s.toList⟩

/-- The source behind its first character `c`, followed by `cs`. -/
def behind (s : Source) (c : Char) (cs : List Char) : Source := ⟨s.offset + c.utf8Size, cs⟩

/-- The next character and what follows it. -/
def next? (s : Source) : Option (Char × Source) :=
  match s.rest with
  | [] => none
  | c :: cs => some (c, s.behind c cs)

/-- What follows `c`, if the next character is `c`. -/
def skip? (s : Source) (c : Char) : Option Source :=
  match s.rest with
  | [] => none
  | d :: cs => if d = c then some (s.behind d cs) else none

/-- Whether the next character is `c`, and what follows it if so. -/
def accept (s : Source) (c : Char) : Bool × Source :=
  match s.skip? c with
  | some t => (true, t)
  | none => (false, s)

/-- What follows the characters `cs`, if they come next. -/
def skipAll? (s : Source) (cs : List Char) : Option Source :=
  cs.foldlM skip? s

/-- Reads on from an offset while characters pass a test. -/
def spanFrom (p : Char → Bool) (offset : Nat) (taken : List Char) : List Char → List Char × Source
  | [] => (taken.reverse, ⟨offset, []⟩)
  | c :: cs =>
    if p c then spanFrom p (offset + c.utf8Size) (c :: taken) cs
    else (taken.reverse, ⟨offset, c :: cs⟩)

/-- The characters up to the first that fails a test, and what follows them. -/
def span (s : Source) (p : Char → Bool) : List Char × Source := spanFrom p s.offset [] s.rest

/-! ## Reading leaves no more than there was -/

theorem next?_length {s t : Source} {c : Char} (h : s.next? = some (c, t)) :
    t.rest.length + 1 = s.rest.length := by
  unfold next? at h
  split at h
  · simp at h
  · next d cs hs =>
    obtain ⟨-, rfl⟩ := Prod.mk.inj (Option.some.inj h)
    simp [behind, hs]

theorem skip?_length {s t : Source} {c : Char} (h : s.skip? c = some t) :
    t.rest.length + 1 = s.rest.length := by
  unfold skip? at h
  split at h
  · simp at h
  · next d cs hs =>
    split at h
    · obtain rfl := Option.some.inj h
      simp [behind, hs]
    · simp at h

theorem accept_length (s : Source) (c : Char) : (s.accept c).2.rest.length ≤ s.rest.length := by
  unfold accept
  split
  · next t ht => exact Nat.le_of_lt (Nat.lt_of_succ_le (Nat.le_of_eq (skip?_length ht)))
  · exact Nat.le_refl _

theorem skipAll?_length {s t : Source} {cs : List Char} (h : s.skipAll? cs = some t) :
    t.rest.length + cs.length = s.rest.length := by
  induction cs generalizing s with
  | nil => simp [skipAll?] at h; simp [h]
  | cons c cs ih =>
    simp only [skipAll?, List.foldlM_cons, Option.bind_eq_bind, Option.bind_eq_some_iff] at h
    obtain ⟨u, hu, ht⟩ := h
    have := ih ht
    have := skip?_length hu
    simp only [List.length_cons]
    omega

theorem spanFrom_length (p : Char → Bool) (offset : Nat) (taken cs : List Char) :
    (spanFrom p offset taken cs).2.rest.length ≤ cs.length := by
  induction cs generalizing offset taken with
  | nil => simp [spanFrom]
  | cons c cs ih =>
    unfold spanFrom
    split
    · exact Nat.le_succ_of_le (ih _ _)
    · simp

theorem span_length (s : Source) (p : Char → Bool) : (s.span p).2.rest.length ≤ s.rest.length :=
  spanFrom_length p _ _ _

end Source

end LinearRegex
