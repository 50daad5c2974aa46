import LinearRegex.CharSet.Basic
import LinearRegex.Prefilter.ByteScan
import LinearRegex.Text.Utf8

/-!
# Sets of bytes

A set of bytes has a bit for each byte, in sixteen words of sixteen bits: the upper half of a byte
tells the word and the lower half the bit. It can be searched for in a text, and it can be filled
with the first bytes of the UTF-8 forms of code points.

Main statement: there are as many members as there are bits (`length_toList`).
-/

namespace LinearRegex

/-- A set of bytes. -/
structure ByteSet where
  words : Vector UInt16 16 := Vector.replicate 16 0
deriving DecidableEq, Inhabited

namespace ByteSet

/-- The set with no members. -/
def empty : ByteSet := {}

theorem upperHalf_lt (b : UInt8) : (b >>> 4).toNat < 16 := by
  have hb := b.toNat_lt
  rw [UInt8.toNat_shiftRight, Nat.shiftRight_eq_div_pow]
  exact Nat.div_lt_of_lt_mul hb

/-- The word with the bit of a byte. -/
def wordOf (b : UInt8) : Fin 16 := ⟨(b >>> 4).toNat, upperHalf_lt b⟩

/-- The bit of a byte in its word. -/
def maskOf (b : UInt8) : UInt16 := 1 <<< (b &&& 0xF).toUInt16

/-- One of the words. -/
def word (s : ByteSet) (i : Fin 16) : UInt16 := s.words[i]

/-- Whether a byte is a member. -/
def contains (s : ByteSet) (b : UInt8) : Bool := s.word (wordOf b) &&& maskOf b != 0

/-- The set with a byte added. -/
def insert (s : ByteSet) (b : UInt8) : ByteSet :=
  ⟨s.words.set (wordOf b) (s.word (wordOf b) ||| maskOf b)⟩

/-- The set of the bytes in a list. -/
def ofList (bytes : List UInt8) : ByteSet := bytes.foldl insert empty

/-- The bytes that are members of one of two sets. -/
def union (s t : ByteSet) : ByteSet := ⟨s.words.zipWith (· ||| ·) t.words⟩

/-- All bytes in order. -/
def allBytes : List UInt8 := (List.range 256).map Nat.toUInt8

/-- The members in ascending order. -/
def toList (s : ByteSet) : List UInt8 := allBytes.filter s.contains

/-- The number of members, by the bits of the words. -/
def size (s : ByteSet) : Nat := s.words.foldl (fun n w => n + w.toBitVec.cpop.toNat) 0

/-! ## Bits -/

theorem val_wordOf (b : UInt8) : (wordOf b).val = b.toNat / 16 := by
  show (b >>> 4).toNat = b.toNat / 16
  rw [UInt8.toNat_shiftRight, Nat.shiftRight_eq_div_pow]
  rfl

theorem toBitVec_maskOf (b : UInt8) : (maskOf b).toBitVec = BitVec.twoPow 16 (b.toNat % 16) := by
  have hlower : ((b &&& 0xF).toUInt16 % 16).toNat = b.toNat % 16 := by
    rw [UInt16.toNat_mod, UInt8.toNat_toUInt16, UInt8.toNat_and]
    exact (congrArg (· % 16) (Nat.and_two_pow_sub_one_eq_mod b.toNat 4)).trans (Nat.mod_mod _ _)
  rw [maskOf, UInt16.toBitVec_shiftLeft, BitVec.shiftLeft_eq', BitVec.twoPow_eq, ← hlower]
  rfl

/-- **A byte is a member if its bit is set.** -/
theorem contains_eq_getLsbD (s : ByteSet) (b : UInt8) :
    s.contains b = (s.word (wordOf b)).toBitVec.getLsbD (b.toNat % 16) := by
  rw [Bool.eq_iff_iff, contains, bne_iff_ne, ne_eq, ← UInt16.toBitVec_inj, UInt16.toBitVec_and,
    toBitVec_maskOf, BitVec.and_twoPow]
  split
  · next h =>
    -- The mask has a bit, so it is not zero.
    refine iff_of_true (fun hzero => ?_) h
    have hbit := congrArg (BitVec.getLsbD · (b.toNat % 16)) hzero
    simp [Nat.mod_lt] at hbit
  · next h => exact iff_of_false (fun hne => hne rfl) h

theorem cpopNatRec_eq_countP {w : Nat} (x : BitVec w) (n acc : Nat) :
    x.cpopNatRec n acc = acc + (List.range n).countP x.getLsbD := by
  induction n generalizing acc with
  | zero => rfl
  | succ n ih =>
    rw [BitVec.cpopNatRec_succ, ih, List.range_succ, List.countP_append, List.countP_singleton]
    cases x.getLsbD n with
    | false => simp
    | true =>
      simp
      omega

/-- The bytes with the upper half `i`, one for each lower half. -/
def bytesOfWord (i : Fin 16) : List UInt8 := (List.range 16).map fun k => (16 * i.val + k).toUInt8

theorem allBytes_eq : allBytes = (List.finRange 16).flatMap bytesOfWord := by decide +kernel

theorem countP_bytesOfWord (s : ByteSet) (i : Fin 16) :
    (bytesOfWord i).countP s.contains = (s.word i).toBitVec.cpop.toNat := by
  rw [BitVec.toNat_cpop, cpopNatRec_eq_countP, Nat.zero_add, bytesOfWord, List.countP_map]
  refine List.countP_congr fun k hk => ?_
  have hk := List.mem_range.mp hk
  have hi := i.isLt
  have hbyte : (16 * i.val + k).toUInt8.toNat = 16 * i.val + k :=
    UInt8.toNat_ofNat_of_lt' (show 16 * i.val + k < 256 by omega)
  have hword : wordOf (16 * i.val + k).toUInt8 = i := by
    rw [Fin.ext_iff, val_wordOf, hbyte]
    omega
  rw [Function.comp_apply, contains_eq_getLsbD, hword, hbyte, Nat.mul_add_mod, Nat.mod_eq_of_lt hk]

theorem foldl_countP {α β : Type} (f : α → List β) (p : β → Bool) (xs : List α) (acc : Nat) :
    xs.foldl (fun n x => n + (f x).countP p) acc = acc + (xs.flatMap f).countP p := by
  induction xs generalizing acc with
  | nil => rfl
  | cons x xs ih =>
    rw [List.foldl_cons, ih, List.flatMap_cons, List.countP_append, Nat.add_assoc]

/-- **There are as many members as bits that are set.** -/
theorem length_toList (s : ByteSet) : s.toList.length = s.size := by
  have hwords : s.words.toList = (List.finRange 16).map s.word :=
    List.ext_getElem (by simp) fun i hi _ => by simp [word]
  have hsize : s.size =
      (List.finRange 16).foldl (fun n i => n + (bytesOfWord i).countP s.contains) 0 := by
    rw [size, ← Vector.foldl_toList, hwords, List.foldl_map]
    simp only [countP_bytesOfWord]
  rw [hsize, foldl_countP, Nat.zero_add, toList, ← List.countP_eq_length_filter, allBytes_eq]

/-! ## Searches -/

/-- The first place from `start` on where a member stands. One, two or three members are looked for
by the given searches; else one place is looked at after the other. -/
def findBy (searchers : ByteScan.Searchers) (s : ByteSet) (bytes : ByteArray) (start : Nat) :
    Option Nat :=
  have hlength := s.length_toList
  match hsize : s.size with
  | 1 => searchers.one s.toList[0] bytes start
  | 2 => searchers.two s.toList[0] s.toList[1] bytes start
  | 3 => searchers.three s.toList[0] s.toList[1] s.toList[2] bytes start
  | _ => ByteScan.leastFrom (fun i => bytes[i]?.any s.contains) start bytes.size

/-- The first place from `start` on where a member stands. -/
def findFrom (s : ByteSet) (bytes : ByteArray) (start : Nat) : Option Nat :=
  s.findBy .scanning bytes start

/-! ## First bytes -/

/-- The set with the bytes between two, both included. -/
def insertRange (s : ByteSet) (first last : UInt8) : ByteSet :=
  (allBytes.filter fun b => first ≤ b && b ≤ last).foldl insert s

/-- The first and last code point of each length of UTF-8 form. -/
def encodingRanges : List Interval :=
  [⟨0, 0x7F⟩, ⟨0x80, 0x7FF⟩, ⟨0x800, 0xFFFF⟩, ⟨0x10000, maxCodePoint⟩]

/-- The set with the first bytes of the code points of an interval that have one length. -/
def insertFirstBytesIn (iv : Interval) (s : ByteSet) (range : Interval) : ByteSet :=
  let first := max iv.first range.first
  let last := min iv.last range.last
  if first ≤ last then s.insertRange (Utf8.firstByte first) (Utf8.firstByte last) else s

/-- The set with the first bytes of all code points of an interval. First bytes ascend with the
code points of one length, so each length adds all bytes between two. -/
def insertFirstBytes (s : ByteSet) (iv : Interval) : ByteSet :=
  encodingRanges.foldl (insertFirstBytesIn iv) s

/-- The first bytes of the code points of a set. -/
def firstBytes (chars : CharSet) : ByteSet := chars.intervals.toList.foldl insertFirstBytes empty

/-- The shown form: members in ascending order, neighbours joined to runs. -/
def text (s : ByteSet) : String :=
  let runs := (s.toList.foldl (fun set b => set.insertCode b.toNat) CharSet.empty).intervals.toList
  let shown := runs.map fun iv =>
    if iv.first = iv.last then toString iv.first else toString iv.first ++ "-" ++ toString iv.last
  "ByteBitmap[" ++ " ".intercalate shown ++ "]"

end ByteSet

end LinearRegex
