import LinearRegex.CharClass
import LinearRegex.Text.Cursor

/-!
# Assertions

Conditions on a place in a text that take no character: the ends of the text and of its lines, and
the boundaries of words.
-/

namespace LinearRegex

/-- A condition on a place in a text. -/
inductive Assertion where
  | lineStart
  | lineEnd
  | textStart
  | textEnd
  /-- A word begins or ends here; or, when negated, does not. -/
  | wordBoundary (negated unicode : Bool)
deriving DecidableEq, Inhabited

/-- Whether the condition is met at a place. -/
def Assertion.holds (a : Assertion) (cur : Cursor) : Bool :=
  match a with
  | .textStart => cur.atStart
  | .textEnd => cur.atEnd
  | .lineStart => cur.atStart || cur.before == some '\n'
  | .lineEnd => cur.atEnd || cur.after == some '\n'
  | .wordBoundary negated unicode =>
    let inWord (c : Option Char) : Bool := c.any (isWordChar · unicode)
    (inWord cur.before != inWord cur.after) != negated

end LinearRegex
