import LinearRegex.Assertion
import LinearRegex.Bracket
import LinearRegex.Flags
import LinearRegex.Pattern.Quantifier

/-!
# The tree of a pattern

A pattern as a tree, with flags and escapes resolved: what each piece matches no longer depends on
where it stands.
-/

namespace LinearRegex

/-- A piece of a pattern. -/
inductive Node where
  /-- Matches the empty text. -/
  | empty
  /-- Matches one character, or those with the same fold when case is ignored; the character is
  its own fold then. -/
  | char (c : Char) (ignoreCase : Bool)
  /-- Matches any character. -/
  | any
  /-- Matches any character but the newline. -/
  | anyButNewline
  /-- Matches a character that the bracket accepts. -/
  | bracket (b : Bracket)
  /-- Matches the empty text where the condition is met. -/
  | assertion (a : Assertion)
  /-- Matches pieces one after the other. -/
  | cat (nodes : List Node)
  /-- Matches one of several branches, the earlier ones preferred. -/
  | alt (branches : List Node)
  /-- Matches a body several times. -/
  | loop (body : Node) (q : Quantifier)
  /-- Matches a body and records where. -/
  | group (body : Node) (index : Nat) (name : Option String)
deriving Inhabited

namespace Node

/-- Pieces one after the other, as one piece. -/
def sequence : List Node → Node
  | [] => .empty
  | [n] => n
  | ns => .cat ns

/-- Branches to choose from, as one piece. -/
def choice : List Node → Node
  | [] => .empty
  | [n] => n
  | ns => .alt ns

/-- The piece for a character that stands for itself. Case is ignored where it makes a difference,
and the character is kept by its fold then. -/
def literal (c : Char) (flags : Flags) : Node :=
  if flags.ignoreCase && CaseFold.hasVariants c then .char (CaseFold.fold c) true
  else .char c false

/-- The piece for a shorthand class outside brackets, where case is never ignored. -/
def ofEscape (e : ClassEscape) (flags : Flags) : Node :=
  .bracket (({ unicode := flags.unicode } : Bracket).addClass e)

end Node

end LinearRegex
