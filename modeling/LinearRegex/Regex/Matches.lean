import LinearRegex.Regex.Basic

/-!
# One match after the other

All matches in a text from left to right, none overlapping another. The next search starts where the
last match ended, or one character later if that match was empty; an empty match right behind
another match is passed over.

Finding the next match ends because passing one over moves the start of the next search by at least
one character.
-/

namespace LinearRegex

/-- Goes on as long as `next` gives something, at most `n` times, and collects what it gives behind
the items given before, the latest of which comes first. -/
def collect {σ α : Type} (next : σ → Option α × σ) : Nat → σ → List α → List α × σ
  | 0, s, items => (items.reverse, s)
  | n + 1, s, items =>
    match next s with
    | (none, s) => (items.reverse, s)
    | (some item, s) => collect next n s (item :: items)

/-- The state of going through the matches in a text. -/
structure Matches where
  re : Regex
  hay : Haystack
  /-- The number of slots that are recorded for each match. -/
  width : Nat
  cache : Cache
  /-- Where to search next, or nothing when there are no more matches. -/
  next : Option Cursor
  /-- Where the last match ended. -/
  lastStop : Option Nat := none
  /-- The matches that the searches have come upon, the latest first; those that were passed over
  are among them. -/
  seen : List Span := []

namespace Matches

/-- Going through the matches in a text from its start, recording some slots for each. -/
def ofWidth (re : Regex) (hay : Haystack) (width : Nat) : Matches where
  re := re
  hay := hay
  width := width
  cache := re.createCache
  next := some hay.start

/-- Going through where the matches are. -/
def ofRegex (re : Regex) (hay : Haystack) : Matches := ofWidth re hay 2

/-- Going through the groups of the matches. -/
def ofCaptures (re : Regex) (hay : Haystack) : Matches :=
  ofWidth re hay (2 * re.groupCount)

theorem next_rest_length {cur : Cursor} {c : Char} {cs : List Char} (h : cur.rest = c :: cs) :
    cur.next.rest.length < cur.rest.length := by
  simp [Cursor.next, h, Cursor.push]

/-- Finds the next match from a place on, in a state that tells where the last one ended. -/
def findNext (m : Matches) (start : Cursor) : Option Span × Matches :=
  match m with
  | ⟨re, hay, width, cache, _, lastStop, seen⟩ =>
    match re.searchSlots hay start width cache with
    | (false, cache) => (none, ⟨re, hay, width, cache, none, lastStop, seen⟩)
    | (true, cache) =>
      match Span.ofSlots? (cache.slots.getD 0 none) (cache.slots.getD 1 none) with
      | none => (none, ⟨re, hay, width, cache, none, lastStop, seen⟩)
      | some span =>
        let stop := start.advanceTo span.stop
        if span.isEmpty then
          match _h : stop.rest with
          | [] =>
            if lastStop = some span.stop then
              (none, ⟨re, hay, width, cache, none, lastStop, span :: seen⟩)
            else (some span, ⟨re, hay, width, cache, none, some span.stop, span :: seen⟩)
          | _ :: _ =>
            if lastStop = some span.stop then
              findNext ⟨re, hay, width, cache, some stop.next, lastStop, span :: seen⟩ stop.next
            else
              (some span, ⟨re, hay, width, cache, some stop.next, some span.stop, span :: seen⟩)
        else (some span, ⟨re, hay, width, cache, some stop, some span.stop, span :: seen⟩)
termination_by start.rest.length
decreasing_by
  have h1 := next_rest_length _h
  have h2 := Program.seek_rest_length span.stop start.offset start.before start.rest
  exact Nat.lt_of_lt_of_le h1 h2

/-- The next match, if there is one. -/
def advance (m : Matches) : Option Span × Matches :=
  match m with
  | ⟨re, hay, width, cache, some start, lastStop, seen⟩ =>
    findNext ⟨re, hay, width, cache, some start, lastStop, seen⟩ start
  | ⟨re, hay, width, cache, none, lastStop, seen⟩ =>
    (none, ⟨re, hay, width, cache, none, lastStop, seen⟩)

/-- The next match with its text. -/
def nextMatch (m : Matches) : Option Match × Matches :=
  match m.advance with
  | (span, m) => (span.map m.hay.matchAt, m)

/-- The groups of the next match. -/
def nextCaptures (m : Matches) : Option Captures × Matches :=
  match m.advance with
  | (span, m) => (span.map fun _ => m.re.capturesOf m.hay m.cache.slots, m)

/-- No text has more matches than this: one for each place between its characters. -/
def bound (hay : Haystack) : Nat := hay.chars.length + 1

/-- At most so many matches as asked for, or all of them. -/
def count (hay : Haystack) (limit : Option Nat) : Nat :=
  match limit with
  | some n => min n (bound hay)
  | none => bound hay

end Matches

namespace Regex

/-- The first matches in a text, and the state behind them. -/
def takeMatches (re : Regex) (hay : Haystack) (limit : Option Nat) : List Match × Matches :=
  collect Matches.nextMatch (Matches.count hay limit) (.ofRegex re hay) []

/-- The groups of the first matches in a text, and the state behind them. -/
def takeCaptures (re : Regex) (hay : Haystack) (limit : Option Nat) : List Captures × Matches :=
  collect Matches.nextCaptures (Matches.count hay limit) (.ofCaptures re hay) []

/-- All matches in a text. -/
def findAll (re : Regex) (hay : Haystack) : List Match := (re.takeMatches hay none).1

/-- The groups of all matches in a text. -/
def capturesAll (re : Regex) (hay : Haystack) : List Captures := (re.takeCaptures hay none).1

end Regex

end LinearRegex
