import LinearRegex.Pattern.Node.Walk
import LinearRegex.Text.Quoted

/-!
# The tree in text

How trees, brackets and quantifiers are shown: one line for each piece, indented by its depth.
-/

namespace LinearRegex

/-- A truth value in lower case. -/
def boolText (b : Bool) : String := if b then "true" else "false"

/-- A list of shown things between square brackets. -/
def listText (items : List String) : String := "[" ++ ", ".intercalate items ++ "]"

/-- Shown fields of a record after its name, between braces. -/
def recordText (name : String) (fields : List (String × String)) : String :=
  name ++ " \x7b " ++ ", ".intercalate (fields.map fun (field, value) => field ++ ": " ++ value)
    ++ " \x7d"

/-- The name of a shorthand class. -/
def CharClass.text : CharClass → String
  | .digits => "Digits"
  | .spaces => "Spaces"
  | .words => "Words"

/-- The shown form of an interval. -/
def Interval.text (iv : Interval) : String :=
  recordText "Interval" [("first", toString iv.first), ("last", toString iv.last)]

/-- The shown form of a set of code points. -/
def CharSet.text (s : CharSet) : String :=
  recordText "CodePointSet" [("ivs", listText (s.intervals.toList.map Interval.text))]

/-- The shown form of a shorthand class in a bracket. -/
def ClassEscape.text (e : ClassEscape) : String :=
  recordText "ClassEscape" [("class_type", e.cls.text), ("positive", boolText e.positive)]

/-- The shown form of a bracket. -/
def Bracket.text (b : Bracket) : String :=
  recordText "BracketContents"
    [("invert", boolText b.negated), ("icase", boolText b.ignoreCase),
      ("unicode", boolText b.unicode), ("cps", b.chars.text),
      ("classes", listText (b.classes.map ClassEscape.text))]

/-- The shown form of a word boundary: its fields by name. -/
def wordBoundaryText (negated unicode : Bool) : String :=
  recordText "WordBoundary" [("invert", boolText negated), ("unicode", boolText unicode)]

namespace Quantifier

/-- The number that is shown for a missing upper bound. -/
def unboundedText : Nat := 0xFFFFFFFFFFFFFFFF

/-- A written bound is never taken for a missing one. -/
theorem countOfDigits_lt_unboundedText (digits : List Char) :
    countOfDigits digits < unboundedText :=
  Nat.lt_of_le_of_lt (countOfDigits_le digits) (show countCeiling < unboundedText by decide)

/-- The shown form of a quantifier. -/
def text (q : Quantifier) : String :=
  recordText "Quantifier"
    [("min", toString q.min), ("max", toString (q.max.getD unboundedText)),
      ("greedy", boolText q.greedy)]

end Quantifier

namespace Node

/-- The kind of a piece in one word. -/
def label : Node → String
  | .empty => "Empty"
  | .char _ _ => "Char"
  | .any => "MatchAny"
  | .anyButNewline => "MatchAnyExceptLineTerminator"
  | .bracket _ => "Bracket"
  | .assertion (.wordBoundary _ _) => "WordBoundary"
  | .assertion _ => "Anchor"
  | .cat _ => "Cat"
  | .alt _ => "Alt"
  | .loop _ _ => "Loop"
  | .group _ _ _ => "CaptureGroup"

/-- The line that shows a piece, without what is inside it. -/
def line : Node → String
  | .empty => "Empty"
  | .char c false => Quoted.char c
  | .char c true => Quoted.char c ++ " (icase)"
  | .any => "MatchAny"
  | .anyButNewline => "MatchAnyExceptLineTerminator"
  | .bracket b => "Bracket " ++ b.text
  | .assertion .lineStart => "Anchor StartOfLine"
  | .assertion .lineEnd => "Anchor EndOfLine"
  | .assertion .textStart => "Anchor StartOfText"
  | .assertion .textEnd => "Anchor EndOfText"
  | .assertion (.wordBoundary false _) => "WordBoundary " ++ Quoted.string "\\b"
  | .assertion (.wordBoundary true _) => "WordBoundary " ++ Quoted.string "\\B"
  | .cat _ => "Cat"
  | .alt branches => "Alt" ++ toString branches.length
  | .loop _ q => "Loop " ++ q.text
  | .group _ index none => "CaptureGroup " ++ toString index
  | .group _ index (some name) => "CaptureGroup " ++ toString index ++ " " ++ Quoted.string name

/-- The whole tree: a line for each piece, in front of the pieces inside it. -/
def text (root : Node) : String :=
  root.walk false
    (fun acc n depth => (acc ++ "".pushn '.' (2 * depth) ++ n.line ++ "\n", false)) ""

end Node

end LinearRegex
