import LinearRegex.CaseFold
import LinearRegex.CharClass

/-!
# Brackets

What a bracket such as `[^a-z\d]` matches: a set of code points together with shorthand classes
that are asked about when a character is tested, possibly complemented. When case is ignored a
character is taken in if any member of its orbit is.
-/

namespace LinearRegex

/-- The contents of a bracket. -/
structure Bracket where
  /-- The bracket matches what its contents do not hold. -/
  negated : Bool := false
  ignoreCase : Bool := false
  /-- The classes go by Unicode properties. -/
  unicode : Bool := false
  chars : CharSet := {}
  classes : List ClassEscape := []
deriving DecidableEq, Inhabited

namespace Bracket

/-- Whether the contents hold exactly this character, before case and complement. -/
def holds (b : Bracket) (c : Char) : Bool :=
  b.chars.contains c.toNat || b.classes.any (·.contains c b.unicode)

/-- Whether the bracket matches a character. -/
def accepts (b : Bracket) (c : Char) : Bool :=
  let held := if b.ignoreCase then b.holds c || (CaseFold.orbit c).any b.holds else b.holds c
  held != b.negated

/-- Whether the bracket is decided by its set of code points alone. -/
def isPlain (b : Bracket) : Bool := b.classes.isEmpty && !b.ignoreCase

/-- The bracket with an interval of code points added. -/
def addInterval (b : Bracket) (iv : Interval) : Bracket := { b with chars := b.chars.insert iv }

/-- The bracket with a set of code points added. -/
def addSet (b : Bracket) (s : CharSet) : Bracket := { b with chars := b.chars.union s }

/-- The bracket with a shorthand class added: kept as a class where it goes by Unicode, written out
as code points where it goes by ASCII. -/
def addClass (b : Bracket) (e : ClassEscape) : Bracket :=
  if b.unicode then { b with classes := b.classes ++ [e] } else b.addSet e.asciiSet

end Bracket

end LinearRegex
