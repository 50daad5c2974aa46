import LinearRegex.Pattern.Node.Width
import LinearRegex.Pattern.Parser
import LinearRegex.Prefilter.Basic

/-!
# How matches begin

What the tree of a pattern tells about the first bytes of its matches. Literal characters in a row
give their bytes, a plain bracket the first bytes of its characters; branches are joined to what
they share, or to the set of their first bytes. Pieces that take no character say nothing.
-/

namespace LinearRegex

/-- What is known of the first bytes of a match. -/
inductive Beginning where
  | anything
  /-- A match begins with these bytes, of which there is at least one. -/
  | bytes (bs : List UInt8)
  /-- A match begins with one of these bytes. -/
  | oneOf (s : ByteSet)
deriving Inhabited

namespace Beginning

/-- The bytes that two lists share at their beginnings. -/
def sharedStart : List UInt8 → List UInt8 → List UInt8
  | a :: as, b :: bs => if a = b then a :: sharedStart as bs else []
  | _, _ => []

/-- The first byte of a list as a set. -/
def firstOf (bs : List UInt8) : ByteSet := .ofList (bs.take 1)

/-- What is known of matches that begin in one of two ways. -/
def join : Beginning → Beginning → Beginning
  | .anything, _ => .anything
  | _, .anything => .anything
  | .bytes as, .bytes bs =>
    match sharedStart as bs with
    | [] => .oneOf ((firstOf as).union (firstOf bs))
    | shared => .bytes shared
  | .oneOf s, .oneOf t => .oneOf (s.union t)
  | .oneOf s, .bytes bs => .oneOf (s.union (firstOf bs))
  | .bytes bs, .oneOf s => .oneOf (s.union (firstOf bs))

/-- The prefilter for what is known. A set with all bytes would filter nothing. -/
def prefilter : Beginning → Prefilter
  | .anything => .anywhere
  | .bytes [] => .anywhere
  | .bytes bs => .literal ⟨bs⟩
  | .oneOf s => if s.size = 0 ∨ s.size = 256 then .anywhere else .firstByte s

/-- Whether a piece leaves a row of literal characters unbroken: it is one of them, or takes no
character. -/
def keepsRun : Node → Bool
  | .char _ false => true
  | n => n.isZeroWidth

/-- The bytes that a piece adds to a row of literal characters. -/
def runBytes : Node → List UInt8
  | .char c false => String.utf8EncodeChar c
  | _ => []

/-- The bytes of the literal characters that pieces in a row begin with. -/
def literalRun (nodes : List Node) : List UInt8 := (nodes.takeWhile keepsRun).flatMap runBytes

/-- The beginning of a bracket: known only if code points alone decide. -/
def ofBracket (b : Bracket) : Beginning :=
  if b.isPlain then .oneOf (.firstBytes (if b.negated then b.chars.compl else b.chars))
  else .anything

mutual

/-- How the matches of a piece begin, or nothing if it takes no character. -/
def ofNode? : Node → Option Beginning
  | .empty => some .anything
  | .char c false => some (.bytes (String.utf8EncodeChar c))
  | .char _ true => some .anything
  | .any => some .anything
  | .anyButNewline => some .anything
  | .assertion _ => none
  | .bracket b => some (ofBracket b)
  | .cat nodes =>
    match literalRun nodes with
    | [] => ofFirst? nodes
    | run => some (.bytes run)
  | .alt branches => some (ofBranches none branches)
  | .loop body q => if 0 < q.min then ofNode? body else some .anything
  | .group body _ _ => ofNode? body

/-- How the matches of the first piece in a row begin that may take a character. -/
def ofFirst? : List Node → Option Beginning
  | [] => none
  | n :: ns => if n.isZeroWidth then ofFirst? ns else ofNode? n

/-- How the matches of branches begin, joined to what is known of the branches before. A branch
that takes no character can begin in any way. -/
def ofBranches (known : Option Beginning) : List Node → Beginning
  | [] => known.getD .anything
  | n :: ns =>
    match ofNode? n with
    | none => .anything
    | some b =>
      match known with
      | none => ofBranches (some b) ns
      | some a => ofBranches (some (a.join b)) ns

end

end Beginning

namespace Node

mutual

/-- Whether a piece begins with the assertion that holds at the start of the text. -/
def beginsAtTextStart : Node → Bool
  | .assertion a => a = .textStart
  | .cat nodes => firstBeginsAtTextStart nodes
  | .alt branches => allBeginAtTextStart branches
  | .group body _ _ => body.beginsAtTextStart
  | .empty => false
  | .char _ _ => false
  | .any => false
  | .anyButNewline => false
  | .bracket _ => false
  | .loop _ _ => false

/-- Whether the first piece of a list begins so. -/
def firstBeginsAtTextStart : List Node → Bool
  | [] => false
  | n :: _ => n.beginsAtTextStart

/-- Whether all pieces of a list begin so. -/
def allBeginAtTextStart : List Node → Bool
  | [] => true
  | n :: ns => n.beginsAtTextStart && allBeginAtTextStart ns

end

/-- The prefilter of a tree. -/
def prefilter (n : Node) : Prefilter :=
  if n.beginsAtTextStart then .textStart
  else if n.canMatchEmpty then .anywhere
  else ((Beginning.ofNode? n).getD .anything).prefilter

end Node

end LinearRegex
