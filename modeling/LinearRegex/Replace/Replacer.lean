import LinearRegex.Regex.Matches
import LinearRegex.Replace.Template

/-!
# Replacing

What is put in the place of a match, and the text with matches replaced. A replacer is called for
one match after the other, with the captures of the match and the text that is made so far. Where
the replacement does not depend on the match, only the bounds of the matches are searched for, and
there are no calls.
-/

namespace LinearRegex

/-- What a reference stands for in a match: nothing if the group has no part in it. -/
def Captures.refText (caps : Captures) (group : GroupRef) : String :=
  let found := match group with
    | .number n => caps.get? n
    | .named name => caps.getNamed? name
  match found with
  | some m => m.text
  | none => ""

/-- What a piece of a template stands for in a match. -/
def Captures.pieceText (caps : Captures) : Template.Piece → String
  | .literal text => text
  | .ref _ group => caps.refText group

/-- A template with its references replaced by what the groups of a match hold. -/
def Captures.expand (caps : Captures) (template : String) : String :=
  String.join ((Template.pieces template).map caps.pieceText)

/-- Something that puts text in the place of matches. It may keep a state, which each call may
change. -/
structure Replacer where
  State : Type
  /-- The state before the first call. -/
  state : State
  /-- Gives the replacement for all matches, if it does not depend on them. -/
  fixed : State → Option String × State := fun s => (none, s)
  /-- Puts the replacement for a match behind the text that is made so far. -/
  append : State → Captures → String → String × State

namespace Replacer

/-- A template, expanded for each match. -/
@[reducible] def template (text : String) : Replacer where
  State := Unit
  state := ()
  fixed _ := (if text.toList.contains '$' then none else some text, ())
  append _ caps made := (made ++ caps.expand text, ())

/-- A text as it is. -/
@[reducible] def verbatim (text : String) : Replacer where
  State := Unit
  state := ()
  fixed _ := (some text, ())
  append _ _ made := (made ++ text, ())

/-- What a function with a state makes of each match. -/
@[reducible] def closure {σ : Type} (state : σ) (f : σ → Captures → String × σ) : Replacer where
  State := σ
  state := state
  append s caps made := (made ++ (f s caps).1, (f s caps).2)

/-- What a function makes of each match. -/
@[reducible] def function (f : Captures → String) : Replacer :=
  closure () fun _ caps => (f caps, ())

/-- The replacement for all matches, if it does not depend on them. -/
def fixed? (rep : Replacer) : Option String := (rep.fixed rep.state).1

/-- The replacement for a match, if it is the first. -/
def textFor (rep : Replacer) (caps : Captures) : String := (rep.append rep.state caps "").1

end Replacer

/-- Copies the characters `cs`, which begin at a byte offset, behind what is made of a text. In the
place of each item that has a span, `put` puts something. -/
def copyAround {α σ : Type} (span? : α → Option Span) (put : σ → α → String → String × σ) :
    Nat → List Char → List α → String → σ → String × σ
  | _, cs, [], made, s => (made ++ String.ofList cs, s)
  | offset, cs, item :: items, made, s =>
    match span? item with
    | none => copyAround span? put offset cs items made s
    | some span =>
      match put s item (made ++ String.ofList (Utf8.takeBytes (span.start - offset) cs)) with
      | (made, s) =>
        copyAround span? put span.stop (Utf8.dropBytes (span.stop - offset) cs) items made s

namespace Regex

/-- How many matches are to be replaced at most; a limit of 0 allows all. -/
def limit? (limit : Nat) : Option Nat := if limit = 0 then none else some limit

/-- A text with the first matches replaced by a text that does not depend on them, so that only
their bounds are searched for. There is no result if nothing matches. -/
def replaceFixed (re : Regex) (hay : Haystack) (limit : Nat) (text : String) : Option String :=
  match (re.takeMatches hay (limit? limit)).1 with
  | [] => none
  | found =>
    let put (_ : Unit) (_ : Match) (made : String) := (made ++ text, ())
    some (copyAround (fun m => some m.toSpan) put 0 hay.chars found "" ()).1

/-- A text with the first matches replaced by what a replacer in some state makes of their captures,
and the state behind the last of them. There is no result if nothing matches. -/
def replaceEach (re : Regex) (hay : Haystack) (limit : Nat) (rep : Replacer) (s : rep.State) :
    Option String × rep.State :=
  match (re.takeCaptures hay (limit? limit)).1 with
  | [] => (none, s)
  | found =>
    match copyAround Captures.whole? rep.append 0 hay.chars found "" s with
    | (made, s) => (some made, s)

/-- A text with the first matches replaced, at most `limit` of them, or all if the limit is 0, and
the state in which that leaves the replacer. There is no result if nothing matches, so that the text
itself can be kept. -/
def replaceWith (re : Regex) (hay : Haystack) (limit : Nat) (rep : Replacer) :
    Option String × rep.State :=
  match rep.fixed rep.state with
  | (some text, s) => (re.replaceFixed hay limit text, s)
  | (none, s) => re.replaceEach hay limit rep s

/-- A text with the first matches replaced, at most `limit` of them, or all if the limit is 0. There
is no result if nothing matches. -/
def replaceAtMost (re : Regex) (hay : Haystack) (limit : Nat) (rep : Replacer) : Option String :=
  (re.replaceWith hay limit rep).1

/-- A text with the first match replaced. -/
def replace (re : Regex) (hay : Haystack) (rep : Replacer) : Option String :=
  re.replaceAtMost hay 1 rep

/-- A text with all matches replaced. -/
def replaceAll (re : Regex) (hay : Haystack) (rep : Replacer) : Option String :=
  re.replaceAtMost hay 0 rep

/-- Whether a reference refers to a group of the pattern. -/
def knows (re : Regex) : GroupRef → Bool
  | .number n => n < re.groupCount
  | .named name => (re.groupIndex? name).isSome

/-- Refuses a template with a reference to a group that there is not; the first one is blamed. -/
def checkTemplate (re : Regex) (template : String) : Except Error Unit :=
  let unknown := (Template.pieces template).findSome? fun
    | .literal _ => none
    | .ref offset group => if re.knows group then none else some (TemplateError.mk group offset)
  match unknown with
  | some e => .error (.template e)
  | none => .ok ()

end Regex

end LinearRegex
