/-!
# Quantifiers

How often a piece of a pattern repeats, and whether more or fewer repetitions are preferred.
-/

namespace LinearRegex

/-- The bounds of a repetition. -/
structure Quantifier where
  min : Nat
  /-- No bound when absent. -/
  max : Option Nat
  /-- More repetitions are preferred to fewer. -/
  greedy : Bool
deriving DecidableEq, Inhabited

namespace Quantifier

/-- The largest bound a counted repetition may have. -/
def largestBound : Nat := 1000

/-- Written bounds from this one on are not told apart. -/
def countCeiling : Nat := 0xFFFFFFFFFFFFFFFE

/-- The value of a run of decimal digits, up to the ceiling. -/
def countOfDigits (digits : List Char) : Nat :=
  digits.foldl (fun n d => Nat.min (n * 10 + (d.toNat - '0'.toNat)) countCeiling) 0

/-- No written bound is above the ceiling. -/
theorem countOfDigits_le (digits : List Char) : countOfDigits digits ≤ countCeiling := by
  have hfold : ∀ n ≤ countCeiling, digits.foldl
      (fun n d => Nat.min (n * 10 + (d.toNat - '0'.toNat)) countCeiling) n ≤ countCeiling := by
    intro n hn
    induction digits generalizing n with
    | nil => exact hn
    | cons d digits ih => exact ih _ (Nat.min_le_right _ _)
  exact hfold 0 (Nat.zero_le _)

/-- Whether some number of repetitions lies between the bounds. -/
def Ordered (q : Quantifier) : Prop := ∀ m, q.max = some m → q.min ≤ m

/-- Whether no written bound is above the largest that is allowed. -/
def Bounded (q : Quantifier) : Prop :=
  q.min ≤ largestBound ∧ ∀ m, q.max = some m → m ≤ largestBound

instance (q : Quantifier) : Decidable q.Ordered := by
  unfold Ordered
  cases q.max with
  | none => exact isTrue (by simp)
  | some m => exact decidable_of_iff (q.min ≤ m) (by simp)

instance (q : Quantifier) : Decidable q.Bounded := by
  unfold Bounded
  cases q.max with
  | none => exact decidable_of_iff (q.min ≤ largestBound) (by simp)
  | some m => exact decidable_of_iff (q.min ≤ largestBound ∧ m ≤ largestBound) (by simp)

end Quantifier

end LinearRegex
