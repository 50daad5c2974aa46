import LinearRegex.Sorted

/-!
# Sets of code points

A set of code points is kept as inclusive intervals that are sorted, disjoint and not even
abutting, so that each set has one form. Adding an interval merges it with those it overlaps or
touches; membership is a binary search.
-/

namespace LinearRegex

/-- The largest code point. -/
def maxCodePoint : Nat := 0x10FFFF

/-- An inclusive range of code points. -/
structure Interval where
  first : Nat
  last : Nat
deriving DecidableEq, Inhabited

namespace Interval

/-- The interval of one code point. -/
def single (c : Nat) : Interval := ⟨c, c⟩

/-- The interval between two characters. -/
def between (a b : Char) : Interval := ⟨a.toNat, b.toNat⟩

/-- Whether a code point lies in the interval. -/
def contains (iv : Interval) (c : Nat) : Bool := iv.first ≤ c && c ≤ iv.last

/-- Whether an interval ends before another begins, with at least one code point in between. -/
def precedes (a b : Interval) : Bool := a.last + 1 < b.first

/-- How an interval stands to another, where intervals that overlap or abut compare equal. -/
def mergeCompare (a b : Interval) : Ordering :=
  if a.precedes b then .lt else if b.precedes a then .gt else .eq

/-- An interval stretched over those it merges with: to where the first of them begins and the last
one ends. -/
def stretch (iv : Interval) : List Interval → Interval
  | [] => iv
  | a :: rest => ⟨min a.first iv.first, max (rest.getLastD a).last iv.last⟩

end Interval

/-- A set of code points. -/
structure CharSet where
  /-- The intervals, sorted, disjoint and not abutting. -/
  intervals : Array Interval := #[]
deriving DecidableEq, Inhabited

namespace CharSet

/-- The set with no members. -/
def empty : CharSet := {}

/-- A table of intervals that are already in order, as a set. -/
def ofPairs (pairs : List (Nat × Nat)) : CharSet :=
  ⟨(pairs.map fun (first, last) => Interval.mk first last).toArray⟩

/-- Whether a code point is a member: the first interval that does not end before it decides. -/
def contains (s : CharSet) (c : Nat) : Bool :=
  match s.intervals[Sorted.partitionPoint (fun iv => iv.last < c) s.intervals]? with
  | some iv => iv.first ≤ c
  | none => false

/-- The set with an interval added. It takes the place of the intervals that it overlaps or touches,
which stand next to each other. -/
def insert (s : CharSet) (iv : Interval) : CharSet :=
  let (start, stop) := Sorted.equalRange (·.mergeCompare iv) s.intervals
  let merged := iv.stretch (s.intervals.extract start stop).toList
  ⟨s.intervals.extract 0 start ++ #[merged] ++ s.intervals.extract stop⟩

/-- The set with one code point added. -/
def insertCode (s : CharSet) (c : Nat) : CharSet := s.insert (.single c)

/-- The set with a list of intervals added. -/
def insertAll (s : CharSet) (ivs : List Interval) : CharSet := ivs.foldl insert s

/-- The union of two sets. -/
def union (s t : CharSet) : CharSet := s.insertAll t.intervals.toList

/-- The gaps from `start` on between intervals, up to the largest code point. -/
def gapsFrom (start : Nat) : List Interval → List Interval
  | [] => if start ≤ maxCodePoint then [⟨start, maxCodePoint⟩] else []
  | iv :: ivs =>
    if start < iv.first then ⟨start, iv.first - 1⟩ :: gapsFrom (iv.last + 1) ivs
    else gapsFrom (iv.last + 1) ivs

/-- The code points that are not members. -/
def compl (s : CharSet) : CharSet := ⟨(gapsFrom 0 s.intervals.toList).toArray⟩

end CharSet

end LinearRegex
