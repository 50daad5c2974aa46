import LinearRegex.Prefilter.ByteSet
import LinearRegex.Prefilter.Literal
import Mathlib.Data.List.Basic

/-!
# The first place

What a search for bytes has to answer: the first place from its start on, or that there is none. A
scan place by place does so. Of the searches for a few bytes that are done by other code this is
relied on, and then the search for a set of bytes and the one for a literal do so too, whichever way
they take.

Main statements: `ByteSet.isFirst_findBy` and `Literal.isFirst_findBy`, and with them
`ByteSet.findBy_eq_findFrom` and `Literal.findBy_eq_findFrom`.
-/

namespace LinearRegex

namespace ByteScan

variable {P Q : Nat → Prop} {p : Nat → Bool} {start last i k o : Nat} {found : Option Nat}
  {bytes : ByteArray}

/-- Whether an answer is the first place from `start` on where something holds. -/
def IsFirst (P : Nat → Prop) (start : Nat) : Option Nat → Prop
  | some o => (start ≤ o ∧ P o) ∧ ∀ i, start ≤ i → P i → o ≤ i
  | none => ∀ i, start ≤ i → ¬ P i

theorem IsFirst.congr (h : IsFirst P start found) (hPQ : ∀ i, P i ↔ Q i) :
    IsFirst Q start found := by
  obtain rfl : P = Q := funext fun i => propext (hPQ i)
  exact h

/-- There is an answer if there is a place, and the answer does not lie behind it. -/
theorem IsFirst.exists_le (h : IsFirst P start found) (hstart : start ≤ k) (hk : P k) :
    ∃ o, found = some o ∧ o ≤ k := by
  cases found with
  | none => exact absurd hk (h k hstart)
  | some o => exact ⟨o, rfl, h.2 k hstart hk⟩

/-- There is one first place at most. -/
theorem IsFirst.unique {found' : Option Nat} (h : IsFirst P start found)
    (h' : IsFirst P start found') : found = found' := by
  cases found with
  | none =>
    cases found' with
    | none => rfl
    | some o' => exact absurd h'.1.2 (h o' h'.1.1)
  | some o =>
    obtain ⟨o', rfl, hle⟩ := h'.exists_le h.1.1 h.1.2
    exact congrArg some (Nat.le_antisymm (h.2 o' h'.1.1 h'.1.2) hle)

/-- **A scan place by place finds the first place.** -/
theorem isFirst_leastFrom (p : Nat → Bool) (start last : Nat) :
    IsFirst (fun i => i ≤ last ∧ p i = true) start (leastFrom p start last) := by
  fun_induction leastFrom p start last with
  | case1 i hi hp => exact ⟨⟨Nat.le_refl i, hi, hp⟩, fun _ hi _ => hi⟩
  | case2 i _ hp ih =>
    -- The place that the scan leaves behind does not pass.
    have hlater : ∀ k, i ≤ k → k ≤ last ∧ p k = true → i + 1 ≤ k := by
      rintro k hik ⟨-, hk⟩
      refine Nat.lt_of_le_of_ne hik ?_
      rintro rfl
      exact hp hk
    cases hfound : leastFrom p (i + 1) last with
    | none =>
      rw [hfound] at ih
      exact fun k hik hk => ih k (hlater k hik hk) hk
    | some o =>
      rw [hfound] at ih
      exact ⟨⟨Nat.le_of_succ_le ih.1.1, ih.1.2⟩, fun k hik hk => ih.2 k (hlater k hik hk) hk⟩
  | case3 i hi => exact fun k hik hk => hi (Nat.le_trans hik hk.1)

/-! ## Bytes at a place -/

/-- Whether one of some bytes stands at a place. -/
def HasOneOf (xs : List UInt8) (bytes : ByteArray) (i : Nat) : Prop := ∃ x ∈ xs, bytes[i]? = some x

/-- Whether bytes stand one after the other from a place on. -/
def Occurs (needle : List UInt8) (bytes : ByteArray) (i : Nat) : Prop :=
  i ≤ bytes.size ∧ ∀ k < needle.length, bytes[i + k]? = needle[k]?

theorem lt_size_of_getElem? {b : UInt8} (h : bytes[i]? = some b) : i < bytes.size := by
  refine Decidable.of_not_not fun hi => ?_
  rw [getElem?_neg bytes i hi] at h
  simp at h

theorem occursAt_iff {needle : List UInt8} :
    i ≤ bytes.size ∧ occursAt bytes i needle = true ↔ Occurs needle bytes i := by
  induction needle generalizing i with
  | nil => simp [occursAt, Occurs]
  | cons b needle ih =>
    rw [occursAt, Bool.and_eq_true, beq_iff_eq]
    constructor
    · rintro ⟨hi, hb, hneedle⟩
      obtain ⟨-, hall⟩ := ih.mp ⟨lt_size_of_getElem? hb, hneedle⟩
      refine ⟨hi, fun k hk => ?_⟩
      cases k with
      | zero => simpa using hb
      | succ k =>
        rw [Nat.add_succ, ← Nat.succ_add]
        exact hall k (Nat.lt_of_succ_lt_succ hk)
    · rintro ⟨hi, hall⟩
      have hb : bytes[i]? = some b := hall 0 (Nat.zero_lt_succ _)
      have hrest : Occurs needle bytes (i + 1) := by
        refine ⟨lt_size_of_getElem? hb, fun k hk => ?_⟩
        rw [Nat.succ_add, ← Nat.add_succ]
        exact hall (k + 1) (Nat.succ_lt_succ hk)
      exact ⟨hi, hb, (ih.mpr hrest).2⟩

theorem occurs_singleton {b : UInt8} : Occurs [b] bytes i ↔ bytes[i]? = some b := by
  rw [← occursAt_iff, occursAt, occursAt, Bool.and_true, beq_iff_eq]
  exact and_iff_right_of_imp fun h => Nat.le_of_lt (lt_size_of_getElem? h)

/-! ## Searches by other code -/

/-- What is relied on of searches: each answers with the first place. -/
structure Searchers.Lawful (f : Searchers) : Prop where
  one : ∀ a (bytes : ByteArray) start, start ≤ bytes.size →
    IsFirst (HasOneOf [a] bytes) start (f.one a bytes start)
  two : ∀ a b (bytes : ByteArray) start, start ≤ bytes.size →
    IsFirst (HasOneOf [a, b] bytes) start (f.two a b bytes start)
  three : ∀ a b c (bytes : ByteArray) start, start ≤ bytes.size →
    IsFirst (HasOneOf [a, b, c] bytes) start (f.three a b c bytes start)
  sequence : ∀ needle (bytes : ByteArray) start, start ≤ bytes.size →
    IsFirst (Occurs needle bytes) start (f.sequence needle bytes start)

/-- A scan for a byte that passes a test finds the first one. -/
theorem isFirst_leastFrom_any {f : UInt8 → Bool} {xs : List UInt8} (h : ∀ x, f x = true ↔ x ∈ xs)
    (bytes : ByteArray) (start : Nat) :
    IsFirst (HasOneOf xs bytes) start
      (leastFrom (fun i => bytes[i]?.any f) start bytes.size) := by
  refine (isFirst_leastFrom _ start bytes.size).congr fun i => ?_
  rw [Option.any_eq_true]
  constructor
  · rintro ⟨-, x, hx, hf⟩
    exact ⟨x, (h x).mp hf, hx⟩
  · rintro ⟨x, hxs, hx⟩
    exact ⟨Nat.le_of_lt (lt_size_of_getElem? hx), x, hx, (h x).mpr hxs⟩

/-- **Scans may be relied on.** -/
theorem Searchers.lawful_scanning : Searchers.scanning.Lawful where
  one _ bytes start _ := isFirst_leastFrom_any (fun _ => List.contains_iff_mem) bytes start
  two _ _ bytes start _ := isFirst_leastFrom_any (fun _ => List.contains_iff_mem) bytes start
  three _ _ _ bytes start _ := isFirst_leastFrom_any (fun _ => List.contains_iff_mem) bytes start
  sequence _ bytes start _ := (isFirst_leastFrom _ start bytes.size).congr fun _ => occursAt_iff

end ByteScan

open ByteScan

variable {searchers : Searchers} {bytes : ByteArray} {start : Nat}

theorem ByteSet.mem_allBytes (b : UInt8) : b ∈ allBytes :=
  List.mem_map.mpr ⟨b.toNat, List.mem_range.mpr b.toNat_lt, UInt8.ofNat_toNat⟩

theorem ByteSet.mem_toList {s : ByteSet} {b : UInt8} : b ∈ s.toList ↔ s.contains b = true := by
  rw [toList, List.mem_filter]
  exact and_iff_right (mem_allBytes b)

/-- **A search for a set finds the first place where a member stands**, whether it goes to a search
for one, two or three bytes or looks at one place after the other. -/
theorem ByteSet.isFirst_findBy (s : ByteSet) (h : searchers.Lawful) (hstart : start ≤ bytes.size) :
    IsFirst (HasOneOf s.toList bytes) start (s.findBy searchers bytes start) := by
  have hlength := s.length_toList
  unfold findBy
  split
  · next hsize =>
    obtain ⟨a, ha⟩ := List.length_eq_one_iff.mp (hlength.trans hsize)
    simp only [ha, List.getElem_cons_zero]
    exact h.one a bytes start hstart
  · next hsize =>
    obtain ⟨a, b, hab⟩ := List.length_eq_two.mp (hlength.trans hsize)
    simp only [hab, List.getElem_cons_zero, List.getElem_cons_succ]
    exact h.two a b bytes start hstart
  · next hsize =>
    obtain ⟨a, b, c, habc⟩ := List.length_eq_three.mp (hlength.trans hsize)
    simp only [habc, List.getElem_cons_zero, List.getElem_cons_succ]
    exact h.three a b c bytes start hstart
  · exact isFirst_leastFrom_any (fun _ => mem_toList.symm) bytes start

theorem ByteSet.isFirst_findFrom (s : ByteSet) (hstart : start ≤ bytes.size) :
    IsFirst (HasOneOf s.toList bytes) start (s.findFrom bytes start) :=
  s.isFirst_findBy Searchers.lawful_scanning hstart

/-- **It does not matter by which searches a set is looked for.** -/
theorem ByteSet.findBy_eq_findFrom (s : ByteSet) (h : searchers.Lawful)
    (hstart : start ≤ bytes.size) : s.findBy searchers bytes start = s.findFrom bytes start :=
  (s.isFirst_findBy h hstart).unique (s.isFirst_findFrom hstart)

/-- **A search for a literal finds the first place where it stands**, also if it is empty or a
single byte. -/
theorem Literal.isFirst_findBy (l : Literal) (h : searchers.Lawful) (hstart : start ≤ bytes.size) :
    IsFirst (Occurs l.bytes bytes) start (l.findBy searchers bytes start) := by
  unfold findBy
  split
  · next hbytes =>
    rw [hbytes]
    exact ⟨⟨Nat.le_refl start, by simpa [Occurs] using hstart⟩, fun _ hi _ => hi⟩
  · next b hbytes =>
    rw [hbytes]
    refine (h.one b bytes start hstart).congr fun i => ?_
    rw [occurs_singleton, HasOneOf]
    simp
  · exact h.sequence l.bytes bytes start hstart

theorem Literal.isFirst_findFrom (l : Literal) (hstart : start ≤ bytes.size) :
    IsFirst (Occurs l.bytes bytes) start (l.findFrom bytes start) :=
  l.isFirst_findBy Searchers.lawful_scanning hstart

/-- **It does not matter by which searches a literal is looked for.** -/
theorem Literal.findBy_eq_findFrom (l : Literal) (h : searchers.Lawful)
    (hstart : start ≤ bytes.size) : l.findBy searchers bytes start = l.findFrom bytes start :=
  (l.isFirst_findBy h hstart).unique (l.isFirst_findFrom hstart)

end LinearRegex
