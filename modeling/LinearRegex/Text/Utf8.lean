/-!
# UTF-8

Texts are measured in the bytes of their UTF-8 form: offsets count bytes, and the places between
characters are the boundaries. This module has the lengths, the cuts at byte offsets, the first
byte of a code point and the reading of bytes that need not be well formed.

`decodeLossy` ends because every step takes at least one byte.
-/

namespace LinearRegex.Utf8

/-! ## Lengths and cuts -/

/-- The number of bytes of a list of characters. -/
def byteLength (cs : List Char) : Nat := cs.foldr (fun c n => c.utf8Size + n) 0

/-- The characters left when the first `n` bytes are gone. -/
def dropBytes (n : Nat) : List Char → List Char
  | [] => []
  | c :: cs => if n = 0 then c :: cs else dropBytes (n - c.utf8Size) cs

/-- The characters that make up the first `n` bytes. -/
def takeBytes (n : Nat) : List Char → List Char
  | [] => []
  | c :: cs => if n = 0 then [] else c :: takeBytes (n - c.utf8Size) cs

/-- The characters between two byte offsets. -/
def slice (cs : List Char) (first last : Nat) : List Char :=
  takeBytes (last - first) (dropBytes first cs)

/-! ## First bytes -/

/-- The first byte of the UTF-8 form of a code point: it tells how many bytes there are and holds
the highest bits of the code point. -/
def firstByte (c : Nat) : UInt8 :=
  if c < 0x80 then c.toUInt8
  else if c < 0x800 then (0xC0 + c / 0x40 % 0x20).toUInt8
  else if c < 0x10000 then (0xE0 + c / 0x1000 % 0x10).toUInt8
  else (0xF0 + c / 0x40000 % 0x08).toUInt8

/-! ## Lossy reading -/

/-- What a first byte announces: its own bits, how many bytes follow, and the bounds of the one
right after it. -/
structure Lead where
  bits : Nat
  following : Nat
  low : UInt8 := 0x80
  high : UInt8 := 0xBF

/-- The reading of a first byte, if some well-formed sequence begins with it. -/
def lead? (b : UInt8) : Option Lead :=
  if b < 0x80 then some { bits := b.toNat, following := 0 }
  else if b < 0xC2 then none
  else if b < 0xE0 then some { bits := b.toNat % 0x20, following := 1 }
  else if b == 0xE0 then some { bits := 0, following := 2, low := 0xA0 }
  else if b == 0xED then some { bits := 0xD, following := 2, high := 0x9F }
  else if b < 0xF0 then some { bits := b.toNat % 0x10, following := 2 }
  else if b == 0xF0 then some { bits := 0, following := 3, low := 0x90 }
  else if b < 0xF4 then some { bits := b.toNat % 0x08, following := 3 }
  else if b == 0xF4 then some { bits := 4, following := 3, high := 0x8F }
  else none

/-- The bytes that can follow in a sequence: at most `n`, the first of them between the bounds. -/
def following (n : Nat) (low high : UInt8) : List UInt8 → List UInt8
  | [] => []
  | b :: bs =>
    match n with
    | 0 => []
    | n + 1 => if low ≤ b && b ≤ high then b :: following n 0x80 0xBF bs else []

/-- The text of some bytes. Each longest part that begins a well-formed sequence and does not
complete it, and each byte that begins none, is read as the replacement character. -/
def decodeLossy : List UInt8 → List Char
  | [] => []
  | b :: bs =>
    match lead? b with
    | none => '\uFFFD' :: decodeLossy bs
    | some lead =>
      let tail := following lead.following lead.low lead.high bs
      let c := if tail.length = lead.following then
          Char.ofNat (tail.foldl (fun acc b => acc * 0x40 + b.toNat % 0x40) lead.bits)
        else '\uFFFD'
      c :: decodeLossy (bs.drop tail.length)
termination_by bs => bs.length

end LinearRegex.Utf8
