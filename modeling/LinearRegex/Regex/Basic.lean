import LinearRegex.Engine.Search
import LinearRegex.Error
import LinearRegex.Regex.Captures

/-!
# Regular expressions

A pattern that has been compiled, and single searches with it. A search for whether there is a match
records no slots, one for where it is records two, and one for its groups records them all.
-/

namespace LinearRegex

/-- How a pattern is to be read and compiled. -/
structure Options where
  flags : Flags := {}
  /-- The limit on the number of instructions. -/
  sizeLimit : Nat := Program.defaultLimit
deriving DecidableEq, Inhabited

/-- A compiled pattern. -/
structure Regex where
  /-- The pattern as it was written. -/
  pattern : String
  program : Program
deriving Inhabited

namespace Regex

/-- Reads and compiles a pattern. -/
def build (pattern : String) (options : Options := {}) : Except Error Regex :=
  match Pattern.parse pattern options.flags with
  | .error e => .error (.pattern e)
  | .ok tree =>
    match Program.compile options.sizeLimit tree with
    | .error e => .error (.compile e)
    | .ok program => .ok { pattern, program }

/-- The flags in force at the end of the pattern. -/
def flags (re : Regex) : Flags := re.program.flags

/-- The number of groups, with the whole match. -/
def groupCount (re : Regex) : Nat := re.program.groupCount

/-- The names of the groups by number. -/
def groupNames (re : Regex) : Array (Option String) := re.program.groupNames

/-- The number of the group with a name. -/
def groupIndex? (re : Regex) (name : String) : Option Nat := indexOfName? re.groupNames name

/-- A cache for searches. -/
def createCache (re : Regex) : Cache := .ofProgram re.program

/-- The captures that a search for all groups has left in a cache. -/
def capturesOf (re : Regex) (hay : Haystack) (slots : Slots) : Captures :=
  ⟨hay, slots.resize re.program.slotCount, re.groupNames⟩

/-! ## Searches without a deadline -/

/-- Searches from a cursor, recording the first `width` slots; they are left in the cache. -/
def searchSlots (re : Regex) (hay : Haystack) (start : Cursor) (width : Nat) (cache : Cache) :
    Bool × Cache :=
  match re.program.search { hay, start } width cache with
  | (.ok found, cache) => (found, cache)
  | (.error _, cache) => (false, cache)

/-- Whether there is a match from a cursor on. -/
def isMatchFrom (re : Regex) (hay : Haystack) (start : Cursor) : Bool :=
  (re.searchSlots hay start 0 re.createCache).1

/-- The first match from a cursor on. -/
def findFrom (re : Regex) (hay : Haystack) (start : Cursor) : Option Match :=
  match re.searchSlots hay start 2 re.createCache with
  | (true, cache) =>
    (Span.ofSlots? (cache.slots.getD 0 none) (cache.slots.getD 1 none)).map hay.matchAt
  | (false, _) => none

/-- The groups of the first match from a cursor on. -/
def capturesFrom (re : Regex) (hay : Haystack) (start : Cursor) : Option Captures :=
  match re.searchSlots hay start re.program.slotCount re.createCache with
  | (true, cache) => some (re.capturesOf hay cache.slots)
  | (false, _) => none

/-- Whether there is a match in a text. -/
def isMatch (re : Regex) (hay : Haystack) : Bool := re.isMatchFrom hay hay.start

/-- The first match in a text. -/
def find (re : Regex) (hay : Haystack) : Option Match := re.findFrom hay hay.start

/-- The groups of the first match in a text. -/
def captures (re : Regex) (hay : Haystack) : Option Captures := re.capturesFrom hay hay.start

/-- The first match from a byte offset on; there is none beyond the end. -/
def findAt (re : Regex) (hay : Haystack) (offset : Nat) : Except NotBoundary (Option Match) :=
  (hay.cursorAt offset).map fun start => start.bind (re.findFrom hay)

/-- The groups of the first match from a byte offset on; there is none beyond the end. -/
def capturesAt (re : Regex) (hay : Haystack) (offset : Nat) :
    Except NotBoundary (Option Captures) :=
  (hay.cursorAt offset).map fun start => start.bind (re.capturesFrom hay)

/-! ## Searches with all settings -/

/-- Where and how to search. -/
structure Request where
  hay : Haystack
  start : Nat := 0
  anchored : Bool := false
  /-- How many places may be looked at before the deadline, if there is one. -/
  budget : Option Nat := none

/-- Searches as requested. There is no match beyond the end of the text, and it is a fault to start
inside a character. -/
def search (re : Regex) (request : Request) (cache : Cache) :
    Except NotBoundary (Except Timeout (Option Captures) × Cache) :=
  (request.hay.cursorAt request.start).map fun
    | none => (.ok none, cache)
    | some start =>
      let input : Input := ⟨request.hay, start, request.anchored, request.budget⟩
      match re.program.search input re.program.slotCount cache with
      | (.ok true, cache) => (.ok (some (re.capturesOf request.hay cache.slots)), cache)
      | (.ok false, cache) => (.ok none, cache)
      | (.error e, cache) => (.error e, cache)

end Regex

/-- Reads and compiles a pattern, and tells whether it matches in a text. -/
def isMatch (pattern text : String) : Except Error Bool :=
  (Regex.build pattern).map fun re => re.isMatch (.ofString text)

/-- The fault of a search that met its deadline, in words. -/
def Timeout.message (_ : Timeout) : String := "Search deadline exceeded"

/-- The characters that get a backslash when a text is quoted. -/
def quotedCharacters : List Char :=
  ['\\', '.', '+', '*', '?', '(', ')', '|', '[', ']', '\x7b', '\x7d', '^', '$', '#', '&', '-', '~']

/-- A text as a pattern that matches just this text: every character with a meaning in patterns gets
a backslash. -/
def quote (text : String) : String :=
  String.ofList (text.toList.flatMap fun c =>
    if quotedCharacters.contains c then ['\\', c] else [c])

end LinearRegex
