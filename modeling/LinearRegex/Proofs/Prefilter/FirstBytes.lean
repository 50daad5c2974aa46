import LinearRegex.Proofs.Prefilter.Landing

/-!
# Sets of first bytes

A set of bytes that is filled with the first bytes of several intervals of code points gets just
these, whatever it held before. None of them can stand within a character, so a search for the set
that starts at a boundary stops at boundaries only.

Main statement: `ByteSet.insertFirstBytes_exact`.
-/

namespace LinearRegex.ByteSet

open Utf8

variable {s : ByteSet} {ivs : List Interval}

/-- First bytes are no continuations, so no continuation is added with them. -/
theorem contains_foldl_insertFirstBytes_of_isContinuation {b : UInt8} (hb : IsContinuation b) :
    (ivs.foldl insertFirstBytes s).contains b = s.contains b := by
  rw [Bool.eq_iff_iff, contains_foldl_insertFirstBytes]
  refine or_iff_left ?_
  rintro ⟨-, -, n, -, -, rfl⟩
  exact not_isContinuation_firstByte n hb

theorem FreeOfContinuations.foldl_insertFirstBytes (hs : s.FreeOfContinuations)
    (ivs : List Interval) : (ivs.foldl insertFirstBytes s).FreeOfContinuations := by
  intro b hb hcontinues
  rw [contains_foldl_insertFirstBytes_of_isContinuation hcontinues] at hb
  exact hs b hb hcontinues

/-- **Just the first bytes of intervals are added.** After any intervals of code points have been
added to a set, it has the bytes that it had and the first bytes of all code points in one of the
intervals, and no others. For a character, the first byte is that of its UTF-8 form. No byte from
0x80 to 0xBF is added; and if there was none, then a search for the set that starts at a boundary of
a text stops only at boundaries. -/
theorem insertFirstBytes_exact (h : ∀ iv ∈ ivs, iv.Proper) (s : ByteSet) :
    (∀ b, (ivs.foldl insertFirstBytes s).contains b = true ↔
      s.contains b = true ∨ ∃ iv ∈ ivs, ∃ n, (iv.first ≤ n ∧ n ≤ iv.last) ∧ firstByte n = b) ∧
    (∀ c : Char, (String.utf8EncodeChar c).head? = some (firstByte c.toNat)) ∧
    (∀ b : UInt8, 0x80 ≤ b → b ≤ 0xBF →
      (ivs.foldl insertFirstBytes s).contains b = s.contains b) ∧
    ((∀ b : UInt8, 0x80 ≤ b → b ≤ 0xBF → s.contains b = false) →
      ∀ (hay : Haystack) (cur : Cursor) (o : Nat), cur ∈ hay.cursors →
        (ivs.foldl insertFirstBytes s).findFrom hay.bytes cur.offset = some o →
        ∃ q ∈ cur.onward, q.offset = o) := by
  refine ⟨fun b => ?_, head?_utf8EncodeChar,
    fun b hlow hhigh => contains_foldl_insertFirstBytes_of_isContinuation ⟨hlow, hhigh⟩, ?_⟩
  · rw [contains_foldl_insertFirstBytes]
    refine or_congr_right (exists_congr fun iv => and_congr_right fun hiv => ?_)
    -- The code points of the intervals are not too large to have a length.
    refine exists_congr fun n => and_iff_right_of_imp fun hn => ?_
    exact Nat.le_trans hn.1.2 (h iv hiv).bounded
  · intro hnone hay cur o hcur hfind
    have hs : s.FreeOfContinuations := by
      intro b hb hcontinues
      rw [hnone b hcontinues.1 hcontinues.2] at hb
      exact Bool.false_ne_true hb
    exact (hs.foldl_insertFirstBytes ivs).exists_boundary hcur hfind

/-- Intervals that begin and end in the middle of a first byte's code points, one of them across two
lengths. In the text, the first character has two bytes and is passed over, and the search stops in
front of the second one. -/
theorem insertFirstBytes_exact_lengths : ∃ (ivs : List Interval) (hay : Haystack),
    ivs = [⟨0x1FFF, 0x10041⟩, ⟨0x7F, 0x7F⟩] ∧ hay = Haystack.ofString "\u00E9\u20AC" ∧
    (∀ iv ∈ ivs, iv.Proper) ∧
    ((ivs.foldl insertFirstBytes (ofList [0x41])).contains 0xE1 = true ↔
      (ofList [0x41]).contains 0xE1 = true ∨
        ∃ iv ∈ ivs, ∃ n, (iv.first ≤ n ∧ n ≤ iv.last) ∧ firstByte n = 0xE1) ∧
    (∀ b : UInt8, 0x80 ≤ b → b ≤ 0xBF → (ofList [0x41]).contains b = false) ∧
    hay.start ∈ hay.cursors ∧
    (ivs.foldl insertFirstBytes (ofList [0x41])).findFrom hay.bytes hay.start.offset = some 2 ∧
    ∃ q ∈ hay.start.onward, q.offset = 2 := by
  let ivs : List Interval := [⟨0x1FFF, 0x10041⟩, ⟨0x7F, 0x7F⟩]
  let hay := Haystack.ofString "\u00E9\u20AC"
  have hproper : ∀ iv ∈ ivs, iv.Proper := by
    simp only [ivs, List.forall_mem_cons, List.not_mem_nil, false_implies, implies_true, and_true]
    exact ⟨⟨by decide, by decide⟩, ⟨by decide, by decide⟩⟩
  have hnone : ∀ b : UInt8, 0x80 ≤ b → b ≤ 0xBF → (ofList [0x41]).contains b = false := by
    intro b hlow _
    rw [← Bool.not_eq_true, contains_ofList, List.mem_singleton]
    rintro rfl
    exact absurd hlow (by decide)
  have hfind : (ivs.foldl insertFirstBytes (ofList [0x41])).findFrom hay.bytes hay.start.offset =
      some 2 := by decide +kernel
  obtain ⟨hmembers, -, -, hstops⟩ := insertFirstBytes_exact hproper (ofList [0x41])
  exact ⟨ivs, hay, rfl, rfl, hproper, hmembers 0xE1, hnone, hay.start_mem_cursors, hfind,
    hstops hnone hay hay.start 2 hay.start_mem_cursors hfind⟩

end LinearRegex.ByteSet
