import LinearRegex.Bracket
import LinearRegex.Flags
import LinearRegex.Pattern.Error
import LinearRegex.Pattern.Quantifier

/-!
# Tokens of a pattern

The pieces a pattern is written with, before flags and nesting give them their meaning.
-/

namespace LinearRegex

/-- What is written in a bracket between its ends. -/
inductive BracketItem where
  | char (c : Char)
  | range (first last : Char)
  | escape (e : ClassEscape)
  /-- A class named as `[:alpha:]`, or its complement `[:^alpha:]`. -/
  | named (members : List Interval) (negated : Bool)
deriving DecidableEq, Inhabited

/-- The bracket with an item added. -/
def Bracket.addItem (b : Bracket) : BracketItem → Bracket
  | .char c => { b with chars := b.chars.insertCode c.toNat }
  | .range first last => b.addInterval (.between first last)
  | .escape e => b.addClass e
  | .named members negated =>
    let set := CharSet.empty.insertAll members
    b.addSet (if negated then set.compl else set)

/-- The bracket with the given items, read under the given flags. -/
def Bracket.ofItems (flags : Flags) (negated : Bool) (items : List BracketItem) : Bracket :=
  items.foldl addItem { negated, ignoreCase := flags.ignoreCase, unicode := flags.unicode }

/-- A flag letter and whether it is switched on or off. -/
structure FlagChange where
  letter : Char
  on : Bool
deriving DecidableEq, Inhabited

/-- The flags after some changes, the last change of a flag deciding. -/
def Flags.change (flags : Flags) (changes : List FlagChange) : Flags :=
  changes.foldl (fun acc ch => (acc.set? ch.letter ch.on).getD acc) flags

/-- What follows an opening parenthesis and tells what kind of group it opens. -/
inductive GroupHead where
  /-- A group that captures. -/
  | capture
  /-- A group that captures and has a name, which begins at an offset. -/
  | named (name : String) (offset : Nat)
  /-- A group that only groups. -/
  | plain
  /-- A group that only groups, inside which flags are changed. -/
  | scoped (changes : List FlagChange)
  /-- No group at all: flags are changed up to the end of the group around it. -/
  | flags (changes : List FlagChange)
deriving DecidableEq, Inhabited

/-- A piece of a pattern. -/
inductive Token where
  /-- A character that stands for itself, perhaps written with an escape. -/
  | char (c : Char)
  | dot
  | caret
  | dollar
  | textStart
  | textEnd
  | wordBoundary (negated : Bool)
  | escape (e : ClassEscape)
  | bracket (negated : Bool) (items : List BracketItem)
  | quantifier (q : Quantifier)
  /-- An opening parenthesis with the head of its group, or what is wrong with the head. -/
  | opening (head : Except PatternError GroupHead)
  | closing
  | bar

/-- A token, or what is wrong with it, and the offset where it begins. -/
structure Lexeme where
  offset : Nat
  token : Except PatternError Token

end LinearRegex
