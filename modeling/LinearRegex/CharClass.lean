import LinearRegex.CharSet.Ascii
import LinearRegex.Unicode.Alphanumeric
import LinearRegex.Unicode.Numeric
import LinearRegex.Unicode.WhiteSpace

/-!
# Shorthand classes

The classes behind `\d`, `\s` and `\w`. Each goes by ASCII or by Unicode properties, as the
`unicode` flag says.
-/

namespace LinearRegex

/-- What a shorthand class collects. -/
inductive CharClass where
  | digits
  | spaces
  | words
deriving DecidableEq, Inhabited

/-- Whether a character counts as part of a word, for `\w` and for word boundaries. -/
def isWordChar (c : Char) (unicode : Bool) : Bool :=
  if unicode then Unicode.alphanumeric.contains c.toNat || c == '_'
  else c.isAlphanum || c == '_'

namespace CharClass

/-- The ASCII members of a class. -/
def asciiIntervals : CharClass → List Interval
  | .digits => CharSet.Ascii.digits
  | .spaces => CharSet.Ascii.spaces
  | .words => CharSet.Ascii.words

/-- Whether a character belongs to a class. -/
def contains (cls : CharClass) (c : Char) (unicode : Bool) : Bool :=
  if unicode then
    match cls with
    | .digits => Unicode.numeric.contains c.toNat
    | .spaces => Unicode.whiteSpace.contains c.toNat
    | .words => isWordChar c true
  else cls.asciiIntervals.any (·.contains c.toNat)

end CharClass

/-- A shorthand class or, when not positive, all that is outside it. -/
structure ClassEscape where
  cls : CharClass
  positive : Bool
deriving DecidableEq, Inhabited

namespace ClassEscape

/-- The escape a letter after a backslash stands for: the capital letter is the complement. -/
def ofLetter? : Char → Option ClassEscape
  | 'd' => some ⟨.digits, true⟩
  | 'D' => some ⟨.digits, false⟩
  | 's' => some ⟨.spaces, true⟩
  | 'S' => some ⟨.spaces, false⟩
  | 'w' => some ⟨.words, true⟩
  | 'W' => some ⟨.words, false⟩
  | _ => none

/-- Whether a character is meant by the escape. -/
def contains (e : ClassEscape) (c : Char) (unicode : Bool) : Bool :=
  e.cls.contains c unicode == e.positive

/-- The code points the escape stands for when classes go by ASCII. -/
def asciiSet (e : ClassEscape) : CharSet :=
  let members := CharSet.empty.insertAll e.cls.asciiIntervals
  if e.positive then members else members.compl

end ClassEscape

end LinearRegex
