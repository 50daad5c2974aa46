import LinearRegex.Text.Utf8

/-!
# Cursors

A place in a text, between two characters: how many bytes lie before it, the character before it
and the characters after it. A cursor only ever stands at a boundary.
-/

namespace LinearRegex

/-- A text to search in, together with its characters and its UTF-8 form. -/
structure Haystack where
  text : String
  chars : List Char
  bytes : ByteArray
  chars_eq : chars = text.toList
  bytes_eq : bytes = text.toUTF8

/-- A place between two characters of a text. -/
structure Cursor where
  offset : Nat
  before : Option Char
  rest : List Char
deriving DecidableEq, Inhabited

namespace Cursor

/-- The character right after the cursor. -/
def after (cur : Cursor) : Option Char := cur.rest.head?

/-- Whether no character comes before. -/
def atStart (cur : Cursor) : Bool := cur.before.isNone

/-- Whether no character comes after. -/
def atEnd (cur : Cursor) : Bool := cur.rest.isEmpty

/-- The cursor before `c :: cs`, moved behind `c`. -/
def push (offset : Nat) (c : Char) (cs : List Char) : Cursor := ⟨offset + c.utf8Size, some c, cs⟩

/-- The cursor behind the next character; at the end of the text it stays. -/
def next (cur : Cursor) : Cursor :=
  match cur.rest with
  | [] => cur
  | c :: cs => push cur.offset c cs

/-- The first boundary from a place on that is not before a byte offset, or else the end. -/
def seek (target offset : Nat) (before : Option Char) : List Char → Cursor
  | [] => ⟨offset, before, []⟩
  | c :: cs =>
    if target ≤ offset then ⟨offset, before, c :: cs⟩
    else seek target (offset + c.utf8Size) (some c) cs

/-- The first boundary at or after the cursor that is not before a byte offset, or else the end. -/
def advanceTo (cur : Cursor) (target : Nat) : Cursor :=
  seek target cur.offset cur.before cur.rest

end Cursor

namespace Haystack

/-- A text made ready for searching. -/
def ofString (text : String) : Haystack := ⟨text, text.toList, text.toUTF8, rfl, rfl⟩

/-- The number of bytes. -/
def size (hay : Haystack) : Nat := hay.bytes.size

/-- The cursor before the first character. -/
def start (hay : Haystack) : Cursor := ⟨0, none, hay.chars⟩

/-- The text between two byte offsets. -/
def slice (hay : Haystack) (first last : Nat) : String :=
  String.ofList (Utf8.slice hay.chars first last)

/-- The text from a byte offset on. -/
def sliceFrom (hay : Haystack) (first : Nat) : String :=
  String.ofList (Utf8.dropBytes first hay.chars)

end Haystack

/-- A byte offset lies inside a character. -/
structure NotBoundary where
  offset : Nat
deriving DecidableEq, Inhabited

/-- The fault in words. -/
def NotBoundary.message (e : NotBoundary) : String :=
  "Start offset " ++ toString e.offset ++ " is not a char boundary"

/-- The cursor at a byte offset. There is none beyond the end of the text, and it is a fault to ask
for one inside a character. -/
def Haystack.cursorAt (hay : Haystack) (offset : Nat) : Except NotBoundary (Option Cursor) :=
  if hay.size < offset then .ok none
  else
    let cur := hay.start.advanceTo offset
    if cur.offset = offset then .ok (some cur) else .error ⟨offset⟩

end LinearRegex
