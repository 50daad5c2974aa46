import LinearRegex.Prefilter.ByteScan
import LinearRegex.Text.Quoted
import LinearRegex.Text.Utf8

/-!
# Literals

A sequence of bytes that is looked for in a text. It need not be a whole number of characters.
-/

namespace LinearRegex

/-- A sequence of bytes to look for. -/
structure Literal where
  bytes : List UInt8
deriving DecidableEq, Inhabited

namespace Literal

/-- The first place from `start` on where the literal stands, by the given searches. No bytes stand
everywhere, and a single one is looked for as such. -/
def findBy (searchers : ByteScan.Searchers) (l : Literal) (hay : ByteArray) (start : Nat) :
    Option Nat :=
  match l.bytes with
  | [] => some start
  | [b] => searchers.one b hay start
  | bs => searchers.sequence bs hay start

/-- The first place from `start` on where the literal stands. -/
def findFrom (l : Literal) (hay : ByteArray) (start : Nat) : Option Nat :=
  l.findBy .scanning hay start

/-- The shown form, as text. -/
def text (l : Literal) : String :=
  "LiteralPrefix(" ++ Quoted.text (Utf8.decodeLossy l.bytes) ++ ")"

end Literal

end LinearRegex
