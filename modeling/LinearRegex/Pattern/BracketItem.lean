import LinearRegex.Pattern.Escape
import LinearRegex.Pattern.Token

/-!
# Reading brackets

The items of a bracket, from behind its `[` to behind its `]`. An item is a character or an escape,
a range between two characters, or a named class. A dash right before the closing `]` is a
character of its own.

Every round of the loop reads at least one character, which is what makes it end.
-/

namespace LinearRegex.BracketItem

open Source

/-- What may stand at either end of a range. -/
inductive Atom where
  | char (c : Char)
  | escape (e : ClassEscape)

/-- An atom as an item of its own. -/
def Atom.item : Atom → BracketItem
  | .char c => .char c
  | .escape e => .escape e

/-- The item between two atoms: only characters in order make a range. -/
def range? : Atom → Atom → Option BracketItem
  | .char a, .char b => if a ≤ b then some (.range a b) else none
  | _, _ => none

/-- Reads one atom, given the character it begins with. -/
def scanAtom (start : Nat) (c : Char) (s : Source) : Except PatternError (Atom × Source) :=
  if c = '\\' then
    match s.next? with
    | none => .error ⟨.incompleteEscape, start⟩
    | some (d, t) =>
      match ClassEscape.ofLetter? d with
      | some e => .ok (.escape e, t)
      | none =>
        if d = 'b' then .ok (.char '\x08', t)
        else
          match Escape.scanChar start s with
          | .error e => .error e
          | .ok (c, s) => .ok (.char c, s)
  else .ok (.char c, s)

/-- Reads a named class, from behind its `[:`. -/
def scanNamed (start : Nat) (s : Source) : Except PatternError (BracketItem × Source) :=
  let (negated, s) := s.accept '^'
  let (name, s) := s.span Char.isLower
  match s.skipAll? [':', ']'], CharSet.Ascii.named? (String.ofList name) with
  | some s, some members => .ok (.named members negated, s)
  | _, _ => .error ⟨.invalidNamedClass, start⟩

/-- Reads what follows an atom: the rest of a range, a last dash, or nothing. -/
def scanAfterAtom (start : Nat) (first : Atom) (s : Source) :
    Except PatternError (List BracketItem × Source) :=
  match s.skip? '-' with
  | none => .ok ([first.item], s)
  | some t =>
    match t.next? with
    | none => .ok ([first.item, .char '-'], t)
    | some (c, u) =>
      if c = ']' then .ok ([first.item, .char '-'], t)
      else
        match scanAtom t.offset c u with
        | .error e => .error e
        | .ok (second, v) =>
          match range? first second with
          | some item => .ok ([item], v)
          | none => .error ⟨.invalidRange, start⟩

/-- Reads one item, or two of which the last is a dash, given the character they begin with. -/
def scanItem (start : Nat) (c : Char) (s : Source) :
    Except PatternError (List BracketItem × Source) :=
  match (if c = '[' then s.skip? ':' else none) with
  | some t =>
    match scanNamed start t with
    | .error e => .error e
    | .ok (item, u) => .ok ([item], u)
  | none =>
    match scanAtom start c s with
    | .error e => .error e
    | .ok (first, t) => scanAfterAtom start first t

/-! ## Reading leaves no more than there was -/

theorem scanAtom_length {o : Nat} {c : Char} {s t : Source} {a : Atom}
    (h : scanAtom o c s = .ok (a, t)) : t.rest.length ≤ s.rest.length := by
  unfold scanAtom at h
  split at h
  · split at h
    · simp at h
    · next d u hu =>
      have hlt := next?_length hu
      split at h
      · obtain ⟨-, rfl⟩ := Prod.mk.inj (Except.ok.inj h)
        omega
      · split at h
        · obtain ⟨-, rfl⟩ := Prod.mk.inj (Except.ok.inj h)
          omega
        · split at h
          · simp at h
          · next d v hv =>
            obtain ⟨-, rfl⟩ := Prod.mk.inj (Except.ok.inj h)
            exact Nat.le_of_lt (Escape.scanChar_length hv)
  · obtain ⟨-, rfl⟩ := Prod.mk.inj (Except.ok.inj h)
    exact Nat.le_refl _

theorem scanNamed_length {o : Nat} {s t : Source} {item : BracketItem}
    (h : scanNamed o s = .ok (item, t)) : t.rest.length ≤ s.rest.length := by
  unfold scanNamed at h
  dsimp only at h
  split at h
  · next u members hu hm =>
    obtain ⟨-, rfl⟩ := Prod.mk.inj (Except.ok.inj h)
    have := skipAll?_length hu
    have := accept_length s '^'
    have := span_length (s.accept '^').2 Char.isLower
    omega
  · simp at h

theorem scanAfterAtom_length {o : Nat} {a : Atom} {s t : Source} {items : List BracketItem}
    (h : scanAfterAtom o a s = .ok (items, t)) : t.rest.length ≤ s.rest.length := by
  unfold scanAfterAtom at h
  split at h
  · obtain ⟨-, rfl⟩ := Prod.mk.inj (Except.ok.inj h)
    exact Nat.le_refl _
  · next u hu =>
    have := skip?_length hu
    split at h
    · obtain ⟨-, rfl⟩ := Prod.mk.inj (Except.ok.inj h)
      omega
    · next c v hv =>
      have := next?_length hv
      split at h
      · obtain ⟨-, rfl⟩ := Prod.mk.inj (Except.ok.inj h)
        omega
      · split at h
        · simp at h
        · next b w hw =>
          have := scanAtom_length hw
          split at h
          · obtain ⟨-, rfl⟩ := Prod.mk.inj (Except.ok.inj h)
            omega
          · simp at h

theorem scanItem_length {o : Nat} {c : Char} {s t : Source} {items : List BracketItem}
    (h : scanItem o c s = .ok (items, t)) : t.rest.length ≤ s.rest.length := by
  unfold scanItem at h
  split at h
  · next u hu =>
    have hlt : u.rest.length ≤ s.rest.length := by
      split at hu
      · have := skip?_length hu; omega
      · simp at hu
    split at h
    · simp at h
    · next item v hv =>
      obtain ⟨-, rfl⟩ := Prod.mk.inj (Except.ok.inj h)
      have := scanNamed_length hv
      omega
  · split at h
    · simp at h
    · next a u hu =>
      have := scanAtom_length hu
      have := scanAfterAtom_length h
      omega

/-! ## The whole bracket -/

/-- Reads the remaining items up to and with the closing `]`, given those read so far, the latest
first. A bracket that is not closed is blamed on its beginning. -/
def scanItems (start : Nat) (read : List BracketItem) (s : Source) :
    Except PatternError (List BracketItem × Source) :=
  match _hs : s.next? with
  | none => .error ⟨.unbalancedBracket, start⟩
  | some (c, t) =>
    if c = ']' then .ok (read.reverse, t)
    else
      match _ht : scanItem s.offset c t with
      | .error e => .error e
      | .ok (items, u) => scanItems start (items.reverseAux read) u
termination_by s.rest.length
decreasing_by
  have := next?_length _hs
  have := scanItem_length _ht
  omega

/-- Reads a bracket from behind its `[`: whether it is negated, and its items. A `]` in the first
place is a character. -/
def scan (start : Nat) (s : Source) : Except PatternError (Token × Source) :=
  let (negated, s) := s.accept '^'
  let (closing, s) := s.accept ']'
  match scanItems start (if closing then [.char ']'] else []) s with
  | .error e => .error e
  | .ok (items, s) => .ok (.bracket negated items, s)

theorem scanItems_length {o : Nat} {read items : List BracketItem} {s t : Source}
    (h : scanItems o read s = .ok (items, t)) : t.rest.length < s.rest.length := by
  fun_induction scanItems o read s with
  | case1 => simp at h
  | case2 read s u hs =>
    obtain ⟨-, rfl⟩ := Prod.mk.inj (Except.ok.inj h)
    have := next?_length hs
    omega
  | case3 => simp at h
  | case4 read s c u hs hc more v hv ih =>
    have := next?_length hs
    have := scanItem_length hv
    have := ih h
    omega

theorem scan_length {o : Nat} {s t : Source} {tok : Token}
    (h : scan o s = .ok (tok, t)) : t.rest.length < s.rest.length := by
  unfold scan at h
  dsimp only at h
  split at h
  · simp at h
  · next items u hu =>
    obtain ⟨-, rfl⟩ := Prod.mk.inj (Except.ok.inj h)
    have h1 := scanItems_length hu
    have h2 := accept_length s '^'
    have h3 := accept_length (s.accept '^').2 ']'
    omega

end LinearRegex.BracketItem
