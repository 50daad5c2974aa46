import LinearRegex.Pattern.Node

/-!
# Walks

A walk calls a visitor on the pieces of a tree, before or after the pieces inside them. The visitor
carries a state along, and it shares a record with the walk: the depth of the piece, and a flag that
tells the walk to leave out what is inside the piece. The flag is lowered where the walk comes to a
piece, and it is heeded before the walk goes on to what is inside. So a visitor that is called
before can leave out pieces, and one that is called after comes too late for that.
-/

namespace LinearRegex.Node

variable {σ : Type}

/-- What a walk and its visitor share. -/
structure Walk where
  /-- Whether what is inside the piece is left out. -/
  skipChildren : Bool := false
  /-- The depth of the piece. -/
  depth : Nat := 0
deriving DecidableEq

namespace Walk

/-- The record at a piece that the walk comes to: the flag is lowered. -/
def lowered (walk : Walk) : Walk := { walk with skipChildren := false }

/-- The record one level further down. -/
def deeper (walk : Walk) : Walk := { walk with depth := walk.depth + 1 }

/-- The record one level further up. -/
def back (walk : Walk) : Walk := { walk with depth := walk.depth - 1 }

end Walk

/-- A visitor that has the whole record in hand: from a state, a piece and the record to the next
state and the record as the visitor leaves it. -/
abbrev SharedVisitor (σ : Type) := σ → Node → Walk → σ × Walk

/-- A walk over one piece, from the walk over what is inside it. -/
def enter (postorder : Bool) (visit : SharedVisitor σ) (n : Node) (inside : σ × Walk → σ × Walk) :
    σ × Walk → σ × Walk := fun (s, walk) =>
  let walk := walk.lowered
  let (s, walk) := if postorder then (s, walk) else visit s n walk
  let (s, walk) :=
    if walk.skipChildren then (s, walk)
    else
      let (s, walk) := inside (s, walk.deeper)
      (s, walk.back)
  if postorder then visit s n walk else (s, walk)

mutual

/-- The walk over a tree. -/
def process (postorder : Bool) (visit : SharedVisitor σ) : Node → σ × Walk → σ × Walk
  | .cat nodes => enter postorder visit (.cat nodes) (processAll postorder visit nodes)
  | .alt branches => enter postorder visit (.alt branches) (processAll postorder visit branches)
  | .loop body q => enter postorder visit (.loop body q) (process postorder visit body)
  | .group body index name =>
    enter postorder visit (.group body index name) (process postorder visit body)
  | .empty => enter postorder visit .empty id
  | .char c ignoreCase => enter postorder visit (.char c ignoreCase) id
  | .any => enter postorder visit .any id
  | .anyButNewline => enter postorder visit .anyButNewline id
  | .bracket b => enter postorder visit (.bracket b) id
  | .assertion a => enter postorder visit (.assertion a) id

/-- The walk over the trees of a list, from left to right. -/
def processAll (postorder : Bool) (visit : SharedVisitor σ) : List Node → σ × Walk → σ × Walk
  | [] => id
  | n :: ns => processAll postorder visit ns ∘ process postorder visit n

end

/-- Visits a whole tree, from its root at depth 0. The record is given back as the walk leaves
it. -/
def traverse (postorder : Bool) (visit : SharedVisitor σ) (root : Node) (s : σ) : σ × Walk :=
  process postorder visit root (s, {})

/-- A visitor that reads the depth alone: from a state, a piece and its depth to the next state, and
whether to raise the flag. -/
abbrev Visitor (σ : Type) := σ → Node → Nat → σ × Bool

/-- A visitor that reads the depth alone, with the record in hand. -/
def Visitor.shared (visit : Visitor σ) : SharedVisitor σ := fun s n walk =>
  let (s, skip) := visit s n walk.depth
  (s, if skip then { walk with skipChildren := true } else walk)

/-- Visits a whole tree by a visitor that reads the depth alone. -/
def walk (postorder : Bool) (visit : Visitor σ) (root : Node) (s : σ) : σ :=
  (traverse postorder visit.shared root s).1

end LinearRegex.Node
