import LinearRegex.Proofs.Text.Boundary
import LinearRegex.Text.Utf8

/-!
# Bytes of a text

The bytes of a text from a boundary on are the UTF-8 form of the characters behind the boundary.

Main statement: `Haystack.getElem?_bytes_of_mem_cursors`.
-/

namespace LinearRegex

namespace Utf8

/-- The UTF-8 form of some characters. -/
def encode (cs : List Char) : List UInt8 := cs.flatMap String.utf8EncodeChar

@[simp] theorem encode_nil : encode [] = [] := rfl

@[simp] theorem encode_cons (c : Char) (cs : List Char) :
    encode (c :: cs) = String.utf8EncodeChar c ++ encode cs := rfl

theorem encode_append (cs ds : List Char) : encode (cs ++ ds) = encode cs ++ encode ds :=
  List.flatMap_append

/-- The first byte of a character as it is announced. -/
theorem head?_utf8EncodeChar (c : Char) :
    (String.utf8EncodeChar c).head? = some (firstByte c.toNat) := by
  have h : c.val.toNat = c.toNat := rfl
  have h₁ : c.toNat ≤ 0x7F ↔ c.toNat < 0x80 := Nat.lt_succ_iff.symm
  have h₂ : c.toNat ≤ 0x7FF ↔ c.toNat < 0x800 := Nat.lt_succ_iff.symm
  have h₃ : c.toNat ≤ 0xFFFF ↔ c.toNat < 0x10000 := Nat.lt_succ_iff.symm
  unfold String.utf8EncodeChar firstByte
  simp only [h, h₁, h₂, h₃]
  split
  · rfl
  · split
    · rw [Nat.add_comm 0xC0]
      rfl
    · split
      · rw [Nat.add_comm 0xE0]
        rfl
      · rw [Nat.add_comm 0xF0]
        rfl

/-- The first byte as a number: no bits are lost. -/
theorem toNat_firstByte (n : Nat) : (firstByte n).toNat =
    if n < 0x80 then n
    else if n < 0x800 then 0xC0 + n / 0x40 % 0x20
    else if n < 0x10000 then 0xE0 + n / 0x1000 % 0x10
    else 0xF0 + n / 0x40000 % 0x08 := by
  have hbyte : ∀ k < 256, k.toUInt8.toNat = k := fun k hk => UInt8.toNat_ofNat_of_lt' hk
  unfold firstByte
  split
  · exact hbyte _ (by omega)
  · split
    · exact hbyte _ (by omega)
    · split
      · exact hbyte _ (by omega)
      · exact hbyte _ (by omega)

end Utf8

/-! ## Where a boundary lies -/

namespace Cursor

/-- Before a boundary lie the characters that have been passed. -/
theorem exists_append_of_mem_onward {cur q : Cursor} (h : q ∈ cur.onward) :
    ∃ passed, cur.rest = passed ++ q.rest ∧
      q.offset = cur.offset + (Utf8.encode passed).length := by
  induction cur using onward_induction with
  | last cur hrest =>
    rw [onward_of_rest_nil hrest, List.mem_singleton] at h
    subst h
    exact ⟨[], rfl, rfl⟩
  | step cur c cs hrest ih =>
    rw [onward_of_rest_cons hrest] at h
    rcases List.mem_cons.mp h with rfl | h
    · exact ⟨[], rfl, rfl⟩
    · obtain ⟨passed, heq, hoffset⟩ := ih h
      refine ⟨c :: passed, ?_, ?_⟩
      · rw [hrest, List.cons_append, ← heq, rest_next hrest]
      · rw [hoffset, offset_next hrest, Utf8.encode_cons, List.length_append,
          String.length_utf8EncodeChar, Nat.add_assoc]

/-- Only at the start of the text there is no character before. -/
theorem eq_or_isSome_before_of_mem_onward {cur q : Cursor} (h : q ∈ cur.onward) :
    q = cur ∨ q.before.isSome = true := by
  induction cur using onward_induction with
  | last cur hrest =>
    rw [onward_of_rest_nil hrest, List.mem_singleton] at h
    exact Or.inl h
  | step cur c cs hrest ih =>
    rw [onward_of_rest_cons hrest] at h
    rcases List.mem_cons.mp h with rfl | h
    · exact Or.inl rfl
    · rcases ih h with rfl | h
      · exact Or.inr (by simp [next, hrest, push])
      · exact Or.inr h

end Cursor

namespace Haystack

variable {hay : Haystack} {cur : Cursor}

theorem bytes_eq_encode (hay : Haystack) : hay.bytes = (Utf8.encode hay.chars).toByteArray := by
  rw [hay.bytes_eq, hay.chars_eq]
  exact String.utf8Encode_toList.symm

theorem getElem?_bytes (hay : Haystack) (i : Nat) :
    hay.bytes[i]? = (Utf8.encode hay.chars)[i]? := by
  rw [bytes_eq_encode]
  by_cases hi : i < (Utf8.encode hay.chars).length
  · rw [List.getElem?_eq_getElem hi, getElem?_pos _ i (by rwa [List.size_toByteArray])]
    rw [List.getElem_toByteArray]
  · rw [List.getElem?_eq_none (Nat.le_of_not_lt hi),
      getElem?_neg _ i (by rwa [List.size_toByteArray])]

/-- The characters of a text are those before a boundary and those behind it. -/
theorem exists_passed (h : cur ∈ hay.cursors) :
    ∃ passed, hay.chars = passed ++ cur.rest ∧ cur.offset = (Utf8.encode passed).length := by
  obtain ⟨passed, heq, hoffset⟩ := Cursor.exists_append_of_mem_onward h
  refine ⟨passed, heq, hoffset.trans ?_⟩
  exact Nat.zero_add _

/-- **The bytes from a boundary on are those of the characters behind it.** -/
theorem getElem?_bytes_of_mem_cursors (h : cur ∈ hay.cursors) (i : Nat) :
    hay.bytes[cur.offset + i]? = (Utf8.encode cur.rest)[i]? := by
  obtain ⟨passed, hchars, hoffset⟩ := exists_passed h
  rw [getElem?_bytes, hchars, Utf8.encode_append, hoffset,
    List.getElem?_append_right (Nat.le_add_right _ _), Nat.add_sub_cancel_left]

theorem offset_le_size (h : cur ∈ hay.cursors) : cur.offset ≤ hay.size := by
  obtain ⟨passed, hchars, hoffset⟩ := exists_passed h
  rw [size, bytes_eq_encode, List.size_toByteArray, hchars, Utf8.encode_append,
    List.length_append, hoffset]
  exact Nat.le_add_right _ _

theorem offset_eq_zero_of_atStart (h : cur ∈ hay.cursors) (hs : cur.atStart = true) :
    cur.offset = 0 := by
  rcases Cursor.eq_or_isSome_before_of_mem_onward h with rfl | hb
  · rfl
  · simp only [Cursor.atStart, Option.isNone_iff_eq_none] at hs
    rw [hs] at hb
    simp at hb

end Haystack

end LinearRegex
