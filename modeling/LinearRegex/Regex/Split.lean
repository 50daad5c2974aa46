import LinearRegex.Regex.Matches

/-!
# Splitting

A text cut at the matches: the segments between them, in order, and what follows the last one, even
if that is empty. A limit on the number of segments leaves the rest of the text in the last one.
-/

namespace LinearRegex

/-- The state of going through the segments of a text. -/
structure Split where
  finder : Matches
  /-- Where the next segment begins, or an offset past the end of the text when the last one has been
  given. -/
  last : Nat

namespace Split

/-- Going through the segments of a text from its start. -/
def ofRegex (re : Regex) (hay : Haystack) : Split := ⟨.ofRegex re hay, 0⟩

/-- All that has not been given yet, which is the last segment. -/
def remainder (s : Split) : Option String × Split :=
  match s with
  | ⟨finder, last⟩ =>
    if finder.hay.size < last then (none, ⟨finder, last⟩)
    else (some (finder.hay.sliceFrom last), ⟨finder, finder.hay.size + 1⟩)

/-- The next segment, if there is one. -/
def next (s : Split) : Option String × Split :=
  match s with
  | ⟨finder, last⟩ =>
    if finder.hay.size < last then (none, ⟨finder, last⟩)
    else
      match finder.advance with
      | (none, finder) => remainder ⟨finder, last⟩
      | (some span, finder) => (some (finder.hay.slice last span.start), ⟨finder, span.stop⟩)

end Split

/-- The state of going through at most so many segments of a text. -/
structure SplitLimited where
  split : Split
  /-- How many segments may still be given. -/
  left : Nat

namespace SplitLimited

/-- Going through at most `limit` segments of a text from its start. -/
def ofRegex (re : Regex) (hay : Haystack) (limit : Nat) : SplitLimited := ⟨.ofRegex re hay, limit⟩

/-- The next segment, if there is one; the last that may be given is all that is left. -/
def next (s : SplitLimited) : Option String × SplitLimited :=
  match s with
  | ⟨split, 0⟩ => (none, ⟨split, 0⟩)
  | ⟨split, 1⟩ =>
    match split.remainder with
    | (segment, split) => (segment, ⟨split, 0⟩)
  | ⟨split, left + 1⟩ =>
    match split.next with
    | (segment, split) => (segment, ⟨split, left⟩)

/-- Bounds on how many segments are still given: there need not be any, and there are no more than
may be given. -/
def sizeHint (s : SplitLimited) : Nat × Option Nat := (0, some s.left)

end SplitLimited

namespace Regex

/-- All segments of a text. -/
def split (re : Regex) (hay : Haystack) : List String :=
  (collect Split.next (Matches.bound hay + 1) (.ofRegex re hay) []).1

/-- At most `limit` segments of a text. -/
def splitAtMost (re : Regex) (hay : Haystack) (limit : Nat) : List String :=
  (collect SplitLimited.next (min limit (Matches.bound hay + 1)) (.ofRegex re hay limit) []).1

end Regex

end LinearRegex
