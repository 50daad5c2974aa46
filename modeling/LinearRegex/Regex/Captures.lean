import LinearRegex.Engine.Threads
import LinearRegex.Text.Cursor
import LinearRegex.Text.Quoted

/-!
# Matches and captures

Where a pattern matches in a text, as a whole and group by group. A group that takes no part in the
match has no place; one that takes part may still be empty.
-/

namespace LinearRegex

/-- A stretch of a text, by byte offsets. -/
structure Span where
  start : Nat
  stop : Nat
deriving DecidableEq, Inhabited

namespace Span

/-- The number of bytes. -/
def length (s : Span) : Nat := s.stop - s.start

/-- Whether there is nothing in it. -/
def isEmpty (s : Span) : Bool := s.start == s.stop

/-- The span between two slots, if both are recorded. -/
def ofSlots? : Slot → Slot → Option Span
  | some start, some stop => some ⟨start, stop⟩
  | _, _ => none

end Span

/-- A stretch of a text together with what stands there. -/
structure Match extends Span where
  text : String
deriving DecidableEq, Inhabited

/-- The stretch of a text at a span. -/
def Haystack.matchAt (hay : Haystack) (s : Span) : Match := ⟨s, hay.slice s.start s.stop⟩

/-- Where the groups of a pattern match. -/
structure Captures where
  hay : Haystack
  slots : Slots
  /-- The names of the groups by number. -/
  groupNames : Array (Option String)

/-- A group that was asked for has no place in a match. -/
inductive MissingGroup where
  | number (n : Nat)
  | named (name : String)
deriving DecidableEq, Inhabited

/-- The fault in words. -/
def MissingGroup.message : MissingGroup → String
  | .number n => "no group at index '" ++ toString n ++ "'"
  | .named name => "no group named '" ++ name ++ "'"

/-- The number of the group with a name. -/
def indexOfName? (names : Array (Option String)) (name : String) : Option Nat :=
  names.findIdx? (· == some name)

namespace Captures

/-- The number of groups, whether they take part in the match or not. -/
def size (caps : Captures) : Nat := caps.groupNames.size

/-- There always is the whole match. -/
def isEmpty (_ : Captures) : Bool := false

/-- The first of the two slots of a group. The number of the group is doubled in a word of 64 bits,
so that from 2^63 on it is taken for a smaller one. (No pattern has a group of such a number. A
build that looks out for overflow stops there.) -/
def firstSlot (i : Nat) : Nat := 2 * i % UInt64.size

@[simp] theorem firstSlot_zero : firstSlot 0 = 0 := rfl

/-- Where a group matches, by its number. -/
def span? (caps : Captures) (i : Nat) : Option Span :=
  Span.ofSlots? (caps.slots.getD (firstSlot i) none) (caps.slots.getD (firstSlot i + 1) none)

/-- Where the match as a whole is. -/
def whole? (caps : Captures) : Option Span := caps.span? 0

/-- What a group matches, by its number. -/
def get? (caps : Captures) (i : Nat) : Option Match := (caps.span? i).map caps.hay.matchAt

/-- What a group matches, by its name. -/
def getNamed? (caps : Captures) (name : String) : Option Match :=
  (indexOfName? caps.groupNames name).bind caps.get?

/-- What a group matches, by its number; it is a fault if it does not take part. -/
def text (caps : Captures) (i : Nat) : Except MissingGroup String :=
  match caps.get? i with
  | some m => .ok m.text
  | none => .error (.number i)

/-- What a group matches, by its name; it is a fault if it does not take part. -/
def textNamed (caps : Captures) (name : String) : Except MissingGroup String :=
  match caps.getNamed? name with
  | some m => .ok m.text
  | none => .error (.named name)

/-- What each group matches, in order. -/
def groups (caps : Captures) : List (Option Match) := (List.range caps.size).map caps.get?

/-- The spans between each two slots in a row. -/
def pairSpans : List Slot → List (Option Span)
  | start :: stop :: slots => Span.ofSlots? start stop :: pairSpans slots
  | _ => []

/-- Where each group matches, in order. -/
def spans (caps : Captures) : List (Option Span) := pairSpans caps.slots.toList

/-- What each group with a name matches, in order. -/
def namedGroups (caps : Captures) : List (String × Option Match) :=
  (List.range caps.size).filterMap fun i =>
    (caps.groupNames.getD i none).map fun name => (name, caps.get? i)

/-- The shown form of one group: its number, its name if it has one, and its text. -/
def entryText (caps : Captures) (i : Nat) : String :=
  let key := match caps.groupNames.getD i none with
    | some name => toString i ++ "/" ++ name
    | none => toString i
  let value := match caps.get? i with
    | some m => "Some(" ++ Quoted.string m.text ++ ")"
    | none => "None"
  key ++ ": " ++ value

/-- The shown form of all groups. -/
def debugText (caps : Captures) : String :=
  "\x7b" ++ ", ".intercalate ((List.range caps.size).map caps.entryText) ++ "\x7d"

end Captures

end LinearRegex
