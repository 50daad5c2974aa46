import LinearRegex.Pattern.Lexeme
import LinearRegex.Pattern.Node

/-!
# Reading patterns

A pattern is read lexeme by lexeme into a tree. The reader keeps the alternation it is in and a
stack of the groups that are open around it; an opening parenthesis pushes a group, a closing one
pops it. Flags belong to the group they are changed in, and names and numbers of capture groups are
given out in the order of the opening parentheses.

The reader ends because each lexeme takes at least one character.
-/

namespace LinearRegex

/-- A pattern as a tree. -/
structure Pattern where
  node : Node
  /-- The flags in force at the end of the pattern. -/
  flags : Flags
  /-- The names of the groups by number; group 0 is the whole match and has none. -/
  groupNames : Array (Option String)
deriving Inhabited

namespace Pattern

/-- The deepest nesting of groups. -/
def deepestNesting : Nat := 250

/-- The largest number of capture groups besides group 0. -/
def mostGroups : Nat := 65535

/-! ## Alternations -/

/-- An alternation that is being read. -/
structure Branches where
  /-- The branches that are complete, the latest first. -/
  complete : List Node := []
  /-- The pieces of the branch that is being read, the latest first. -/
  pieces : List Node := []
  /-- Whether anything has been read of the current branch. -/
  started : Bool := false
  /-- Whether the last thing read is a piece that can be repeated. -/
  repeatable : Bool := false
  /-- The offset of the last bar. -/
  lastBar : Option Nat := none
  /-- The offset of the bar to blame for the first branch that is empty. -/
  emptyAt : Option Nat := none
deriving Inhabited

namespace Branches

/-- Takes in a piece. -/
def push (b : Branches) (n : Node) : Branches :=
  { b with pieces := n :: b.pieces, started := true, repeatable := true }

/-- Takes in something that is not a piece. -/
def touch (b : Branches) : Branches := { b with started := true, repeatable := false }

/-- Repeats the last piece, if there is one to repeat. -/
def repeatLast? (b : Branches) (q : Quantifier) : Option Branches :=
  match b.repeatable, b.pieces with
  | true, n :: ns => some { b with pieces := .loop n q :: ns, repeatable := false }
  | _, _ => none

/-- The branches with the one being read, in order. -/
def nodes (b : Branches) : List Node := (Node.sequence b.pieces.reverse :: b.complete).reverse

/-- Ends the current branch at a bar. If it is empty, the bar before it is blamed, or this one if
there is none before. -/
def bar (b : Branches) (offset : Nat) : Branches where
  complete := Node.sequence b.pieces.reverse :: b.complete
  lastBar := some offset
  emptyAt := b.emptyAt.or (if b.started then none else some (b.lastBar.getD offset))

/-- Ends the alternation. A single branch may be empty, one of several may not. -/
def finish (b : Branches) : Except PatternError Node :=
  match b.emptyAt.or (if b.started then none else b.lastBar) with
  | some offset => .error ⟨.emptyBranch, offset⟩
  | none => .ok (Node.choice b.nodes)

end Branches

/-! ## The reader's state -/

/-- A group that is open. -/
structure OpenGroup where
  /-- The offset of its parenthesis. -/
  offset : Nat
  /-- Its number and name, if it captures. -/
  capture : Option (Nat × Option String)
  /-- The flags to return to when it closes. -/
  flags : Flags
  /-- The alternation around it. -/
  around : Branches
deriving Inhabited

/-- The state of the reader between two lexemes. -/
structure Reader where
  flags : Flags
  names : Array (Option String) := #[none]
  /-- The open groups, the innermost first. -/
  groups : List OpenGroup := []
  /-- The alternation of the innermost open group, or of the whole pattern. -/
  branches : Branches := {}
deriving Inhabited

namespace Reader

/-- Takes in a piece. -/
def push (r : Reader) (n : Node) : Reader := { r with branches := r.branches.push n }

/-- Opens a group that only groups, under the given flags. -/
def openGroup (r : Reader) (offset : Nat) (flags : Flags) : Reader :=
  { r with flags, groups := ⟨offset, none, r.flags, r.branches⟩ :: r.groups, branches := {} }

/-- Opens a group that captures, unless there are too many. -/
def openCapture (r : Reader) (offset : Nat) (name : Option String) : Except PatternError Reader :=
  if mostGroups < r.names.size then .error ⟨.tooManyGroups, offset⟩
  else .ok
    { r with
      names := r.names.push name
      groups := ⟨offset, some (r.names.size, name), r.flags, r.branches⟩ :: r.groups
      branches := {} }

/-- Takes in an opening parenthesis with the head of its group. -/
def opening (r : Reader) (offset : Nat) : GroupHead → Except PatternError Reader
  | .capture => r.openCapture offset none
  | .named name nameOffset =>
    if r.names.contains (some name) then .error ⟨.duplicateGroupName, nameOffset⟩
    else r.openCapture offset (some name)
  | .plain => .ok (r.openGroup offset r.flags)
  | .scoped changes => .ok (r.openGroup offset (r.flags.change changes))
  | .flags changes =>
    .ok { r with flags := r.flags.change changes, branches := r.branches.touch }

/-- Takes in a closing parenthesis. -/
def closing (r : Reader) (offset : Nat) : Except PatternError Reader :=
  match r.branches.finish with
  | .error e => .error e
  | .ok body =>
    match r.groups with
    | [] => .error ⟨.unbalancedParenthesis, offset⟩
    | g :: groups =>
      let node := match g.capture with
        | none => body
        | some (index, name) => .group body index name
      .ok { r with flags := g.flags, groups, branches := g.around.push node }

/-- Takes in a lexeme. -/
def step (r : Reader) (lx : Lexeme) : Except PatternError Reader :=
  match lx.token with
  | .error e => .error e
  | .ok token =>
    match token with
    | .char c => .ok (r.push (.literal c r.flags))
    | .dot => .ok (r.push (if r.flags.dotAll then .any else .anyButNewline))
    | .caret => .ok (r.push (.assertion (if r.flags.multiLine then .lineStart else .textStart)))
    | .dollar => .ok (r.push (.assertion (if r.flags.multiLine then .lineEnd else .textEnd)))
    | .textStart => .ok (r.push (.assertion .textStart))
    | .textEnd => .ok (r.push (.assertion .textEnd))
    | .wordBoundary negated =>
      .ok (r.push (.assertion (.wordBoundary negated r.flags.unicode)))
    | .escape e => .ok (r.push (.ofEscape e r.flags))
    | .bracket negated items => .ok (r.push (.bracket (.ofItems r.flags negated items)))
    | .quantifier q =>
      match r.branches.repeatLast? q with
      | some branches => .ok { r with branches }
      | none => .error ⟨.nothingToRepeat, lx.offset⟩
    | .opening head =>
      if deepestNesting ≤ r.groups.length then .error ⟨.nestingTooDeep, lx.offset⟩
      else
        match head with
        | .error e => .error e
        | .ok head => r.opening lx.offset head
    | .closing => r.closing lx.offset
    | .bar => .ok { r with branches := r.branches.bar lx.offset }

/-- Takes in all lexemes that are left. -/
def run (r : Reader) (s : Source) : Except PatternError Reader :=
  match _hs : Lexeme.next? s with
  | none => .ok r
  | some (lx, t) =>
    match r.step lx with
    | .error e => .error e
    | .ok r => run r t
termination_by s.rest.length
decreasing_by exact Lexeme.next?_length _hs

/-- The pattern that has been read, at its end. -/
def finish (r : Reader) : Except PatternError Pattern :=
  match r.branches.finish with
  | .error e => .error e
  | .ok node =>
    match r.groups with
    | [] => .ok ⟨node, r.flags, r.names⟩
    | g :: _ => .error ⟨.unbalancedParenthesis, g.offset⟩

end Reader

/-- Reads a pattern under some flags. -/
def parse (pattern : String) (flags : Flags) : Except PatternError Pattern :=
  match Reader.run { flags } (.ofString pattern) with
  | .error e => .error e
  | .ok r => r.finish

end Pattern

end LinearRegex
