import LinearRegex.Prefilter.ByteSet
import LinearRegex.Prefilter.Literal

/-!
# Prefilters

A cheap test for the places where a match can begin. A search asks it where to go on when no
attempt is under way.
-/

namespace LinearRegex

/-- Where matches can begin. -/
inductive Prefilter where
  /-- Anywhere. -/
  | anywhere
  /-- Only at the start of the text. -/
  | textStart
  /-- Only where these bytes stand. -/
  | literal (l : Literal)
  /-- Only where one of these bytes stands. -/
  | firstByte (s : ByteSet)
deriving DecidableEq, Inhabited

namespace Prefilter

/-- The first offset from `start` on where a match can begin. -/
def next? (p : Prefilter) (hay : ByteArray) (start : Nat) : Option Nat :=
  match p with
  | .anywhere => some start
  | .textStart => if start = 0 then some 0 else none
  | .literal l => l.findFrom hay start
  | .firstByte s => s.findFrom hay start

/-- The kind of a prefilter in one word. -/
def label : Prefilter → String
  | .anywhere => "Arbitrary"
  | .textStart => "StartAnchored"
  | .literal _ => "ByteSeq"
  | .firstByte _ => "ByteBracket"

/-- The bytes that a prefilter looks for. -/
def bytes? : Prefilter → Option (List UInt8)
  | .anywhere => none
  | .textStart => none
  | .literal l => some l.bytes
  | .firstByte s => some s.toList

/-- The shown form. -/
def text : Prefilter → String
  | .anywhere => "Arbitrary"
  | .textStart => "StartAnchored"
  | .literal l => "ByteSeq(" ++ l.text ++ ")"
  | .firstByte s => "ByteBracket(" ++ s.text ++ ")"

end Prefilter

end LinearRegex
