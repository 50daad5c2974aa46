/-!
# Flags

The four switches a pattern can be read under, and their letters. A text of letters switches on
the flags it names; letters that name no flag are passed over, and a letter may be repeated.
-/

namespace LinearRegex

/-- The switches in force where a piece of a pattern is read. -/
structure Flags where
  /-- Letters stand for every character with the same case fold. -/
  ignoreCase : Bool := false
  /-- `^` and `$` also hold at line boundaries. -/
  multiLine : Bool := false
  /-- `.` also stands for a newline. -/
  dotAll : Bool := false
  /-- `\d`, `\s`, `\w` and `\b` go by Unicode properties instead of ASCII. -/
  unicode : Bool := false
deriving DecidableEq, Inhabited

namespace Flags

/-- The flags with the one named by `letter` set to `on`, if the letter names one. -/
def set? (flags : Flags) (letter : Char) (on : Bool) : Option Flags :=
  match letter with
  | 'i' => some { flags with ignoreCase := on }
  | 'm' => some { flags with multiLine := on }
  | 's' => some { flags with dotAll := on }
  | 'u' => some { flags with unicode := on }
  | _ => none

/-- Switches on every flag named in a list of letters. -/
def enableAll (flags : Flags) (letters : List Char) : Flags :=
  letters.foldl (fun acc letter => (acc.set? letter true).getD acc) flags

/-- The flags named by a text of letters. -/
def ofLetters (letters : String) : Flags := enableAll {} letters.toList

/-- The letters of the flags that are on, always in the order `m`, `i`, `s`, `u`. -/
def letters (flags : Flags) : List Char :=
  (if flags.multiLine then ['m'] else []) ++ (if flags.ignoreCase then ['i'] else []) ++
    (if flags.dotAll then ['s'] else []) ++ (if flags.unicode then ['u'] else [])

/-- The written form of the flags. -/
def toString (flags : Flags) : String := String.ofList flags.letters

/-- Reading the written form gives the flags back. -/
theorem ofLetters_toString (flags : Flags) : ofLetters flags.toString = flags := by
  obtain ⟨i, m, s, u⟩ := flags
  cases i <;> cases m <;> cases s <;> cases u <;>
    simp [ofLetters, toString, letters, enableAll, set?]

end Flags

end LinearRegex
