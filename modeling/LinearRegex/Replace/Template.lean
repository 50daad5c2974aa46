import LinearRegex.Text.Utf8

/-!
# Templates

A replacement template is text with references to groups. A reference begins with a dollar sign and
goes on with a name: the longest run of letters, digits and underscores, or anything up to the
first closing brace when the name is in braces. Two dollar signs stand for one, and a dollar sign
that begins no reference stands for itself.

Cutting a template ends because every piece takes at least one character.
-/

namespace LinearRegex

/-- What a reference refers to. -/
inductive GroupRef where
  | number (n : Nat)
  | named (name : String)
deriving DecidableEq, Inhabited

namespace GroupRef

/-- References by number stop being numbers from this one on. -/
def numberLimit : Nat := 0x10000000000000000

/-- The value of decimal digits. -/
def valueOfDigits (digits : List Char) : Nat :=
  digits.foldl (fun n d => n * 10 + (d.toNat - '0'.toNat)) 0

/-- The number that a name spells: digits, perhaps after a plus sign, with a value below the
limit. -/
def number? (name : List Char) : Option Nat :=
  let digits := match name with
    | '+' :: d :: ds => d :: ds
    | cs => cs
  if !digits.isEmpty && digits.all Char.isDigit && valueOfDigits digits < numberLimit then
    some (valueOfDigits digits)
  else none

/-- The group that a name refers to: by number if it spells one. -/
def ofName (name : List Char) : GroupRef :=
  match number? name with
  | some n => .number n
  | none => .named (String.ofList name)

/-- Whether a character may stand in a name without braces. -/
def isNameChar (c : Char) : Bool := c.isAlphanum || c == '_'

/-- Reads a name in braces, from behind the opening one, and gives what follows the closing one. -/
def scanBraced? (cs : List Char) : Option (List Char × List Char) :=
  match cs.dropWhile (· != '\x7d') with
  | _ :: rest => some (cs.takeWhile (· != '\x7d'), rest)
  | [] => none

/-- A reference in a template. -/
structure Scanned where
  name : List Char
  /-- The number of bytes from the dollar sign to the end of the reference. -/
  length : Nat
  /-- What follows. -/
  rest : List Char

/-- The group that a reference refers to. -/
def Scanned.group (r : Scanned) : GroupRef := ofName r.name

/-- Reads a reference from behind its dollar sign, though its name may be empty. -/
def scanName? (cs : List Char) : Option Scanned :=
  match cs with
  | '\x7b' :: inner =>
    (scanBraced? inner).map fun (name, rest) => ⟨name, Utf8.byteLength name + 3, rest⟩
  | cs =>
    let name := cs.takeWhile isNameChar
    some ⟨name, Utf8.byteLength name + 1, cs.dropWhile isNameChar⟩

/-- Reads a reference from behind its dollar sign, if there is one. -/
def scan? (cs : List Char) : Option Scanned := (scanName? cs).filter fun r => !r.name.isEmpty

/-- Reads the reference at the beginning of a text, if it begins with a dollar sign. -/
def parse? (s : String) : Option Scanned :=
  match s.toList with
  | '$' :: cs => scan? cs
  | _ => none

theorem dropWhile_length (p : Char → Bool) (cs : List Char) :
    (cs.dropWhile p).length ≤ cs.length :=
  (List.dropWhile_suffix p).length_le

theorem scanBraced?_length {cs name rest : List Char} (h : scanBraced? cs = some (name, rest)) :
    rest.length ≤ cs.length := by
  unfold scanBraced? at h
  split at h
  · next d more hd =>
    obtain ⟨-, rfl⟩ := Prod.mk.inj (Option.some.inj h)
    have := dropWhile_length (· != '\x7d') cs
    rw [hd, List.length_cons] at this
    omega
  · simp at h

theorem scanName?_length {cs : List Char} {r : Scanned} (h : scanName? cs = some r) :
    r.rest.length ≤ cs.length := by
  unfold scanName? at h
  split at h
  · next inner =>
    obtain ⟨⟨name, rest⟩, hb, rfl⟩ := Option.map_eq_some_iff.mp h
    exact Nat.le_succ_of_le (scanBraced?_length hb)
  · obtain rfl := Option.some.inj h
    exact dropWhile_length _ _

theorem scan?_length {cs : List Char} {r : Scanned} (h : scan? cs = some r) :
    r.rest.length ≤ cs.length :=
  scanName?_length (Option.filter_eq_some_iff.mp h).1

/-- How a reference is spelled in messages. -/
def text : GroupRef → String
  | .number n => "$" ++ toString n
  | .named name => "$\x7b" ++ name ++ "\x7d"

end GroupRef

namespace Template

/-- A piece of a template. -/
inductive Piece where
  /-- Text that stands for itself. -/
  | literal (text : String)
  /-- A reference, and the offset of its dollar sign. -/
  | ref (offset : Nat) (group : GroupRef)
deriving DecidableEq, Inhabited

/-- The piece for some text, unless it is empty. -/
def literal? (cs : List Char) : List Piece :=
  if cs.isEmpty then [] else [.literal (String.ofList cs)]

/-- The pieces of what is left of a template from an offset on. -/
def piecesFrom (offset : Nat) (cs : List Char) : List Piece :=
  let plain := cs.takeWhile (· != '$')
  let dollar := offset + Utf8.byteLength plain
  match _h : cs.dropWhile (· != '$') with
  | [] => literal? plain
  | _ :: '$' :: rest => literal? plain ++ .literal "$" :: piecesFrom (dollar + 2) rest
  | _ :: rest =>
    match _hr : GroupRef.scan? rest with
    | some r => literal? plain ++ .ref dollar r.group :: piecesFrom (dollar + r.length) r.rest
    | none => literal? plain ++ .literal "$" :: piecesFrom (dollar + 1) rest
termination_by cs.length
decreasing_by
  all_goals
    have hlt := GroupRef.dropWhile_length (· != '$') cs
    rw [_h] at hlt
    simp only [List.length_cons] at hlt
  · omega
  · have := GroupRef.scan?_length _hr
    omega
  · omega

/-- The pieces of a template. -/
def pieces (template : String) : List Piece := piecesFrom 0 template.toList

end Template

/-- A template refers to a group that there is not, at an offset. -/
structure TemplateError where
  group : GroupRef
  offset : Nat
deriving DecidableEq, Inhabited

/-- The error in words. -/
def TemplateError.message (e : TemplateError) : String :=
  "Unknown group reference " ++ e.group.text

end LinearRegex
