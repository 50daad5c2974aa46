import LinearRegex.Sorted

/-!
# Binary search finds the point

Where a test holds of the elements of an array up to some point and not after it, binary search
finds the point. So in a sorted array it finds all elements that compare equal.

Main statements: `partitionPoint_spec`, `equalRange_spec` and `mem_equalElements_iff`.
-/

namespace LinearRegex.Sorted

variable {α : Type} {p : α → Bool} {xs : Array α} {lo hi : Nat}

/-- A test that holds of no element after one that it fails on. -/
def Switches (p : α → Bool) (xs : Array α) : Prop :=
  ∀ (i j : Nat) (x y : α), i ≤ j → xs[i]? = some x → xs[j]? = some y → p y = true → p x = true

/-- A point such that the test holds before it and not from it on. -/
structure IsPoint (p : α → Bool) (xs : Array α) (k : Nat) : Prop where
  before : ∀ (i : Nat) (x : α), i < k → xs[i]? = some x → p x = true
  after : ∀ (i : Nat) (x : α), k ≤ i → xs[i]? = some x → p x = false

theorem partitionBetween_spec (hs : Switches p xs) (hle : lo ≤ hi) (hsize : hi ≤ xs.size)
    (before : ∀ (i : Nat) (x : α), i < lo → xs[i]? = some x → p x = true)
    (after : ∀ (i : Nat) (x : α), hi ≤ i → xs[i]? = some x → p x = false) :
    IsPoint p xs (partitionBetween p xs lo hi) := by
  fun_induction partitionBetween p xs lo hi with
  | case1 lo hi hlt mid x hx hp ih =>
    refine ih (by omega) hsize (fun i y hi hy => ?_) after
    exact hs i mid y x (by omega) hy hx hp
  | case2 lo hi hlt mid x hx hp ih =>
    refine ih (by omega) (by omega) before ?_
    intro i y hi hy
    cases hpy : p y with
    | false => rfl
    | true => exact absurd (hs mid i x y hi hx hy hpy) hp
  | case3 lo hi hlt mid hx ih =>
    rw [Array.getElem?_eq_none_iff] at hx
    omega
  | case4 lo hi hlt =>
    obtain rfl : lo = hi := by omega
    exact ⟨before, after⟩

/-- A search up to the end finds the point. -/
theorem partitionBetween_size_spec (hs : Switches p xs) (hle : lo ≤ xs.size)
    (before : ∀ (i : Nat) (x : α), i < lo → xs[i]? = some x → p x = true) :
    IsPoint p xs (partitionBetween p xs lo xs.size) := by
  refine partitionBetween_spec hs hle (Nat.le_refl _) before fun i x hi hx => ?_
  rw [Array.getElem?_eq_none_iff.mpr hi] at hx
  simp at hx

/-- **Binary search finds the point.** -/
theorem partitionPoint_spec (hs : Switches p xs) : IsPoint p xs (partitionPoint p xs) :=
  partitionBetween_size_spec hs (Nat.zero_le _) fun i _ hi _ => absurd hi (Nat.not_lt_zero i)

/-- What the range of the elements that compare equal is bounded by: less before it, greater from its
end on. -/
structure IsEqualRange (compare : α → Ordering) (xs : Array α) (first last : Nat) : Prop where
  lt : IsPoint (fun x => compare x == .lt) xs first
  le : IsPoint (fun x => compare x != .gt) xs last
  first_le : first ≤ last
  last_le : last ≤ xs.size

/-- **Two binary searches find the range**, the second from where the first ends. -/
theorem equalRange_spec {compare : α → Ordering}
    (hlt : Switches (fun x => compare x == .lt) xs)
    (hle : Switches (fun x => compare x != .gt) xs) :
    IsEqualRange compare xs (equalRange compare xs).1 (equalRange compare xs).2 := by
  have hfirst := partitionPoint_spec hlt
  have hsize := partitionPoint_le_size (fun x => compare x == .lt) xs
  unfold equalRange
  generalize partitionPoint (fun x => compare x == .lt) xs = first at hfirst hsize ⊢
  refine ⟨hfirst, partitionBetween_size_spec hle hsize fun i x hi hx => ?_,
    le_partitionBetween _ xs first xs.size, partitionBetween_le _ xs hsize⟩
  have hlt := hfirst.before i x hi hx
  simp_all

/-- **Binary search finds all that compares equal**, in an array that is sorted by the
comparison. -/
theorem mem_equalElements_iff {compare : α → Ordering} {x : α}
    (hlt : Switches (fun x => compare x == .lt) xs)
    (hle : Switches (fun x => compare x != .gt) xs) :
    x ∈ equalElements compare xs ↔ x ∈ xs ∧ compare x = .eq := by
  have hrange := equalRange_spec hlt hle
  unfold equalElements
  generalize equalRange compare xs = range at hrange ⊢
  obtain ⟨first, last⟩ := range
  obtain ⟨hfirst, hlast, -, -⟩ := hrange
  rw [Array.mem_toList_iff, Array.mem_extract_iff_getElem]
  constructor
  · rintro ⟨k, hk, rfl⟩
    have hi : first + k < xs.size := by omega
    have hget : xs[first + k]? = some xs[first + k] := Array.getElem?_eq_getElem hi
    have hge := hfirst.after _ _ (Nat.le_add_right first k) hget
    have hne := hlast.before _ _ (by omega) hget
    refine ⟨Array.getElem_mem hi, ?_⟩
    simp only [beq_eq_false_iff_ne, bne_iff_ne] at hge hne
    cases h : compare xs[first + k] with
    | lt => exact absurd h hge
    | eq => rfl
    | gt => exact absurd h hne
  · rintro ⟨hx, heq⟩
    obtain ⟨i, hi, rfl⟩ := Array.mem_iff_getElem.mp hx
    have hget : xs[i]? = some xs[i] := Array.getElem?_eq_getElem hi
    have hfrom : first ≤ i := by
      refine Nat.le_of_not_lt fun hlt => ?_
      simpa [heq] using hfirst.before i _ hlt hget
    have hto : i < last := by
      refine Nat.lt_of_not_le fun hle => ?_
      simpa [heq] using hlast.after i _ hle hget
    refine ⟨i - first, by omega, ?_⟩
    simp only [Nat.add_sub_cancel' hfrom]

theorem equalElements_sublist (compare : α → Ordering) (xs : Array α) :
    (equalElements compare xs).Sublist xs.toList := by
  unfold equalElements
  dsimp only
  rw [Array.toList_extract, List.extract_eq_take_drop]
  exact (List.take_sublist _ _).trans (List.drop_sublist _ _)

end LinearRegex.Sorted
