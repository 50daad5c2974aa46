import LinearRegex.Pattern.Node

/-!
# Pieces that match nothing

Two approximations of what a piece can match: whether it surely takes no character, and whether it
may take none.
-/

namespace LinearRegex.Node

mutual

/-- Whether a piece never takes a character, as far as its shape tells. A `false` says nothing. -/
def isZeroWidth : Node → Bool
  | .empty => true
  | .assertion _ => true
  | .cat nodes => allZeroWidth nodes
  | .group body _ _ => body.isZeroWidth
  | .char _ _ => false
  | .any => false
  | .anyButNewline => false
  | .bracket _ => false
  | .alt _ => false
  | .loop _ _ => false

/-- Whether no piece of a list takes a character, as far as their shapes tell. -/
def allZeroWidth : List Node → Bool
  | [] => true
  | n :: ns => n.isZeroWidth && allZeroWidth ns

end

mutual

/-- Whether a piece might match the empty text. A `true` says nothing. -/
def canMatchEmpty : Node → Bool
  | .empty => true
  | .assertion _ => true
  | .char _ _ => false
  | .any => false
  | .anyButNewline => false
  | .bracket _ => false
  | .cat nodes => allCanMatchEmpty nodes
  | .alt branches => anyCanMatchEmpty branches
  | .loop body q => q.min == 0 || body.canMatchEmpty
  | .group body _ _ => body.canMatchEmpty

/-- Whether every piece of a list might match the empty text. -/
def allCanMatchEmpty : List Node → Bool
  | [] => true
  | n :: ns => n.canMatchEmpty && allCanMatchEmpty ns

/-- Whether some piece of a list might match the empty text. -/
def anyCanMatchEmpty : List Node → Bool
  | [] => false
  | n :: ns => n.canMatchEmpty || anyCanMatchEmpty ns

end

end LinearRegex.Node
