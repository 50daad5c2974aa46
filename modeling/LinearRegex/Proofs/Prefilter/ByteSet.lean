import LinearRegex.Proofs.CharSet.Canonical
import LinearRegex.Proofs.Prefilter.ByteScan
import LinearRegex.Proofs.Text.Bytes

/-!
# Members of byte sets

What the operations on sets of bytes do to their members. A set is filled with the first bytes of an
interval by filling the range between two bytes for each length of UTF-8 form. This adds just the
first bytes of the interval: within one length the first byte is a constant and the upper bits of
the code point, so that it ascends with the code point and leaves nothing out.

Main statement: a set of first bytes has the first bytes of the code points it is filled with, and
no others (`ByteSet.contains_firstBytes_iff`).
-/

namespace LinearRegex.ByteSet

variable {s : ByteSet} {b c : UInt8} {iv range : Interval} {m n : Nat}

/-- A word and a bit in it tell the byte. -/
theorem eq_iff_wordOf : b = c ↔ wordOf b = wordOf c ∧ b.toNat % 16 = c.toNat % 16 := by
  rw [← UInt8.toNat_inj, Fin.ext_iff, val_wordOf, val_wordOf]
  omega

@[simp] theorem contains_empty (b : UInt8) : empty.contains b = false := by
  simp [contains_eq_getLsbD, word, empty]

theorem contains_insert (s : ByteSet) (b c : UInt8) :
    (s.insert b).contains c = true ↔ s.contains c = true ∨ b = c := by
  rw [contains_eq_getLsbD, contains_eq_getLsbD, insert, eq_iff_wordOf]
  by_cases hword : wordOf b = wordOf c
  · have hbit : c.toNat % 16 = b.toNat % 16 ↔ b.toNat % 16 = c.toNat % 16 := eq_comm
    simp [word, hword, toBitVec_maskOf, Nat.mod_lt, hbit]
  · have hne : (wordOf b).val ≠ (wordOf c).val := fun h => hword (Fin.ext h)
    simp [word, hword, hne]

/-- Steps that add members have added at the end what one of them adds. -/
theorem contains_foldl {α : Type} {step : ByteSet → α → ByteSet} {Adds : α → Prop} {xs : List α}
    (hstep : ∀ x ∈ xs, ∀ s : ByteSet,
      (step s x).contains c = true ↔ s.contains c = true ∨ Adds x) :
    (xs.foldl step s).contains c = true ↔ s.contains c = true ∨ ∃ x ∈ xs, Adds x := by
  induction xs generalizing s with
  | nil => simp
  | cons x xs ih =>
    obtain ⟨hx, hxs⟩ := List.forall_mem_cons.mp hstep
    rw [List.foldl_cons, ih hxs, hx, or_assoc]
    simp only [List.mem_cons, exists_eq_or_imp]

theorem contains_foldl_insert (bytes : List UInt8) (s : ByteSet) (c : UInt8) :
    (bytes.foldl insert s).contains c = true ↔ s.contains c = true ∨ c ∈ bytes := by
  rw [contains_foldl fun b _ s => contains_insert s b c]
  simp

theorem contains_ofList (bytes : List UInt8) (c : UInt8) :
    (ofList bytes).contains c = true ↔ c ∈ bytes := by
  rw [ofList, contains_foldl_insert]
  simp

theorem contains_union (s t : ByteSet) (c : UInt8) :
    (s.union t).contains c = true ↔ s.contains c = true ∨ t.contains c = true := by
  simp [contains_eq_getLsbD, word, union]

theorem contains_insertRange (s : ByteSet) (first last c : UInt8) :
    (s.insertRange first last).contains c = true ↔
      s.contains c = true ∨ first ≤ c ∧ c ≤ last := by
  rw [insertRange, contains_foldl_insert, List.mem_filter]
  simp [mem_allBytes]

/-! ## First bytes of one length -/

/-- Within one length, the first byte is a constant and the upper bits of the code point. -/
theorem exists_toNat_firstByte (hrange : range ∈ encodingRanges) : ∃ base unit, 0 < unit ∧
    ∀ n, range.first ≤ n → n ≤ range.last → (Utf8.firstByte n).toNat = base + n / unit := by
  unfold encodingRanges maxCodePoint at hrange
  simp only [List.mem_cons, List.not_mem_nil, or_false] at hrange
  rcases hrange with rfl | rfl | rfl | rfl
  · refine ⟨0, 1, by decide, fun n hfirst hlast => ?_⟩
    dsimp only at hlast
    rw [Utf8.toNat_firstByte, if_pos (by omega)]
    omega
  · refine ⟨0xC0, 0x40, by decide, fun n hfirst hlast => ?_⟩
    dsimp only at hfirst hlast
    rw [Utf8.toNat_firstByte, if_neg (by omega), if_pos (by omega)]
    omega
  · refine ⟨0xE0, 0x1000, by decide, fun n hfirst hlast => ?_⟩
    dsimp only at hfirst hlast
    rw [Utf8.toNat_firstByte, if_neg (by omega), if_neg (by omega), if_pos (by omega)]
    omega
  · refine ⟨0xF0, 0x40000, by decide, fun n hfirst hlast => ?_⟩
    dsimp only at hfirst hlast
    rw [Utf8.toNat_firstByte, if_neg (by omega), if_neg (by omega), if_neg (by omega)]
    omega

/-- **Between two first bytes of one length lie just the first bytes of the code points between**:
they ascend with the code points, and none is left out. -/
theorem between_firstBytes_iff (hrange : range ∈ encodingRanges) (hmn : m ≤ n)
    (hm : range.first ≤ m) (hn : n ≤ range.last) :
    Utf8.firstByte m ≤ b ∧ b ≤ Utf8.firstByte n ↔
      ∃ k, (m ≤ k ∧ k ≤ n) ∧ Utf8.firstByte k = b := by
  obtain ⟨base, unit, hunit, hfirst⟩ := exists_toNat_firstByte hrange
  have hlow := hfirst m hm (Nat.le_trans hmn hn)
  have hhigh := hfirst n (Nat.le_trans hm hmn) hn
  rw [UInt8.le_iff_toNat_le, UInt8.le_iff_toNat_le, hlow, hhigh]
  constructor
  · rintro ⟨hmb, hbn⟩
    -- The code point is the first one with these upper bits, or the lower end if that comes later.
    obtain ⟨upper, hupper⟩ := Nat.exists_eq_add_of_le (Nat.le_trans (Nat.le_add_right _ _) hmb)
    rw [hupper] at hmb hbn
    have hmupper : m / unit ≤ upper := Nat.le_of_add_le_add_left hmb
    have huppern : upper * unit ≤ n :=
      (Nat.le_div_iff_mul_le hunit).mp (Nat.le_of_add_le_add_left hbn)
    have hmk : m ≤ max m (upper * unit) := Nat.le_max_left _ _
    have hkn : max m (upper * unit) ≤ n := Nat.max_le.mpr ⟨hmn, huppern⟩
    refine ⟨max m (upper * unit), ⟨hmk, hkn⟩, ?_⟩
    rw [← UInt8.toNat_inj, hfirst _ (Nat.le_trans hm hmk) (Nat.le_trans hkn hn), hupper]
    congr 1
    rcases Nat.le_total m (upper * unit) with hle | hle
    · rw [Nat.max_eq_right hle, Nat.mul_div_cancel _ hunit]
    · rw [Nat.max_eq_left hle]
      exact Nat.le_antisymm hmupper ((Nat.le_div_iff_mul_le hunit).mpr hle)
  · rintro ⟨k, ⟨hmk, hkn⟩, rfl⟩
    rw [hfirst k (Nat.le_trans hm hmk) (Nat.le_trans hkn hn)]
    exact ⟨Nat.add_le_add_left (Nat.div_le_div_right hmk) _,
      Nat.add_le_add_left (Nat.div_le_div_right hkn) _⟩

/-! ## First bytes of intervals -/

theorem contains_insertFirstBytesIn (s : ByteSet) (hrange : range ∈ encodingRanges) :
    (insertFirstBytesIn iv s range).contains c = true ↔ s.contains c = true ∨
      ∃ n, (iv.first ≤ n ∧ n ≤ iv.last) ∧ (range.first ≤ n ∧ n ≤ range.last) ∧
        Utf8.firstByte n = c := by
  unfold insertFirstBytesIn
  dsimp only
  split
  · next hle =>
    rw [contains_insertRange, between_firstBytes_iff hrange hle (Nat.le_max_right _ _)
      (Nat.min_le_right _ _)]
    refine or_congr_right (exists_congr fun n => ?_)
    rw [Nat.max_le, Nat.le_min, and_and_and_comm, and_assoc]
  · next hlt =>
    refine (or_iff_left ?_).symm
    rintro ⟨n, hiv, hn, -⟩
    omega

/-- Every code point has some length. -/
theorem exists_encodingRange_iff :
    (∃ range ∈ encodingRanges, range.first ≤ n ∧ n ≤ range.last) ↔ n ≤ maxCodePoint := by
  unfold encodingRanges maxCodePoint
  simp only [List.mem_cons, List.not_mem_nil, or_false, exists_eq_or_imp, exists_eq_left]
  omega

/-- **Just the first bytes of the code points of an interval are added.** -/
theorem contains_insertFirstBytes (s : ByteSet) (iv : Interval) (c : UInt8) :
    (s.insertFirstBytes iv).contains c = true ↔ s.contains c = true ∨
      ∃ n ≤ maxCodePoint, (iv.first ≤ n ∧ n ≤ iv.last) ∧ Utf8.firstByte n = c := by
  have hadd : ∀ range ∈ encodingRanges, ∀ s : ByteSet,
      (insertFirstBytesIn iv s range).contains c = true ↔ s.contains c = true ∨
        ∃ n, (iv.first ≤ n ∧ n ≤ iv.last) ∧ (range.first ≤ n ∧ n ≤ range.last) ∧
          Utf8.firstByte n = c := fun _ hrange s => contains_insertFirstBytesIn s hrange
  refine (contains_foldl hadd).trans (or_congr_right ?_)
  constructor
  · rintro ⟨range, hrange, n, hiv, hn, hc⟩
    exact ⟨n, exists_encodingRange_iff.mp ⟨range, hrange, hn⟩, hiv, hc⟩
  · rintro ⟨n, hle, hiv, hc⟩
    obtain ⟨range, hrange, hn⟩ := exists_encodingRange_iff.mpr hle
    exact ⟨range, hrange, n, hiv, hn, hc⟩

theorem contains_foldl_insertFirstBytes (ivs : List Interval) (s : ByteSet) (c : UInt8) :
    (ivs.foldl insertFirstBytes s).contains c = true ↔ s.contains c = true ∨
      ∃ iv ∈ ivs, ∃ n ≤ maxCodePoint, (iv.first ≤ n ∧ n ≤ iv.last) ∧ Utf8.firstByte n = c :=
  contains_foldl fun iv _ s => contains_insertFirstBytes s iv c

/-- **A set of first bytes has just the first bytes of its code points.** -/
theorem contains_firstBytes_iff {chars : CharSet} : (firstBytes chars).contains c = true ↔
    ∃ n ≤ maxCodePoint, CharSet.Mem n chars ∧ Utf8.firstByte n = c := by
  rw [firstBytes, contains_foldl_insertFirstBytes, contains_empty]
  simp only [Bool.false_eq_true, false_or]
  constructor
  · rintro ⟨iv, hmem, n, hle, hiv, hc⟩
    exact ⟨n, hle, ⟨iv, hmem, hiv⟩, hc⟩
  · rintro ⟨n, hle, ⟨iv, hmem, hiv⟩, hc⟩
    exact ⟨iv, hmem, n, hle, hiv, hc⟩

end LinearRegex.ByteSet
