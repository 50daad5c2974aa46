import LinearRegex.Assertion
import LinearRegex.Bracket
import LinearRegex.Flags
import LinearRegex.Pattern.Node.Printer
import LinearRegex.Prefilter.Basic

/-!
# Programs

What a pattern is compiled to: a list of instructions for threads that run side by side through a
text. A thread is at an instruction; it waits there for a character, or it goes on at once.
-/

namespace LinearRegex

/-- An instruction. -/
inductive Instr where
  /-- A match is complete. -/
  | accept
  /-- Take one character. -/
  | char (c : Char)
  /-- Take a character with this fold. -/
  | foldedChar (c : Char)
  /-- Take a character that the bracket with this number accepts. -/
  | bracket (index : Nat)
  /-- Take any character. -/
  | any
  /-- Take any character but the newline. -/
  | anyButNewline
  /-- Go on to the next instruction if the condition is met here. -/
  | assertion (a : Assertion)
  /-- Go on at both targets, the primary one preferred. -/
  | split (primary secondary : Nat)
  /-- Go on at the target. -/
  | jump (target : Nat)
  /-- Record the place in a slot and go on to the next instruction. -/
  | save (slot : Nat)
deriving DecidableEq, Inhabited

/-- A compiled pattern. -/
structure Program where
  instrs : Array Instr
  /-- The brackets that instructions refer to by number. -/
  brackets : Array Bracket
  prefilter : Prefilter
  /-- The names of the groups by number; group 0 is the whole match and has none. -/
  groupNames : Array (Option String)
  flags : Flags
deriving Inhabited

namespace Program

/-- The number of groups, with the whole match. -/
def groupCount (p : Program) : Nat := p.groupNames.size

/-- The number of slots: two for each group, where it begins and where it ends. -/
def slotCount (p : Program) : Nat := 2 * p.groupCount

end Program

/-- The shown form of an instruction, with its bracket written out. -/
def Instr.text (brackets : Array Bracket) : Instr → String
  | .accept => "Goal"
  | .char c => "Char " ++ Quoted.char c
  | .foldedChar c => "CharICase " ++ Quoted.char c
  | .bracket index => "Bracket " ++ (brackets[index]?.getD {}).text
  | .any => "MatchAny"
  | .anyButNewline => "MatchAnyExceptLineTerminator"
  | .assertion .lineStart => "StartOfLine"
  | .assertion .lineEnd => "EndOfLine"
  | .assertion .textStart => "StartOfText"
  | .assertion .textEnd => "EndOfText"
  | .assertion (.wordBoundary negated unicode) => wordBoundaryText negated unicode
  | .split primary secondary =>
    recordText "Split" [("primary", toString primary), ("secondary", toString secondary)]
  | .jump target => recordText "Jump" [("target", toString target)]
  | .save slot => "Save(" ++ toString slot ++ ")"

/-- A number at the right end of four columns, or of as many as it needs. -/
def numberColumn (n : Nat) : String :=
  "".pushn ' ' (4 - (toString n).length) ++ toString n

/-- The shown form: a line for each instruction, after its number. -/
def Program.text (p : Program) : String :=
  (p.instrs.foldl
    (fun (acc, i) instr =>
      (acc ++ numberColumn i ++ ": " ++ instr.text p.brackets ++ "\n", i + 1))
    ("", 0)).1

end LinearRegex
