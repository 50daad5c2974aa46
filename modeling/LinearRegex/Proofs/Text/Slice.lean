import LinearRegex.Proofs.Text.Bytes

/-!
# Cuts at boundaries

A text that is cut at boundaries falls into the characters between them: nothing is lost, and no
character is cut in two.

Main statements: `Haystack.rest_eq_slice_append` and `Haystack.exists_slice`.
-/

namespace LinearRegex

namespace Utf8

/-! ## Lengths -/

@[simp] theorem byteLength_cons (c : Char) (cs : List Char) :
    byteLength (c :: cs) = c.utf8Size + byteLength cs := rfl

theorem byteLength_cons_ne_zero (c : Char) (cs : List Char) : byteLength (c :: cs) ≠ 0 := by
  have := c.utf8Size_pos
  rw [byteLength_cons]
  omega

/-- The number of bytes is the length of the UTF-8 form. -/
theorem length_encode (cs : List Char) : (encode cs).length = byteLength cs := by
  induction cs with
  | nil => rfl
  | cons c cs ih =>
    rw [encode_cons, List.length_append, String.length_utf8EncodeChar, ih, byteLength_cons]

theorem byteLength_append (cs ds : List Char) :
    byteLength (cs ++ ds) = byteLength cs + byteLength ds := by
  rw [← length_encode, encode_append, List.length_append, length_encode, length_encode]

/-! ## Cuts behind some characters -/

theorem dropBytes_append (cs ds : List Char) : dropBytes (byteLength cs) (cs ++ ds) = ds := by
  induction cs with
  | nil =>
    cases ds with
    | nil => rfl
    | cons d ds => rfl
  | cons c cs ih =>
    rw [List.cons_append, dropBytes, if_neg (byteLength_cons_ne_zero c cs), byteLength_cons,
      Nat.add_sub_cancel_left, ih]

theorem takeBytes_append (cs ds : List Char) : takeBytes (byteLength cs) (cs ++ ds) = cs := by
  induction cs with
  | nil =>
    cases ds with
    | nil => rfl
    | cons d ds => rfl
  | cons c cs ih =>
    rw [List.cons_append, takeBytes, if_neg (byteLength_cons_ne_zero c cs), byteLength_cons,
      Nat.add_sub_cancel_left, ih]

end Utf8

/-- The number of bytes of a text is that of its characters. -/
theorem Utf8.byteLength_toList (text : String) : byteLength text.toList = text.utf8ByteSize := by
  have hsize := congrArg ByteArray.size (Haystack.ofString text).bytes_eq_encode
  rw [List.size_toByteArray, length_encode] at hsize
  exact hsize.symm

namespace Haystack

variable {hay : Haystack} {cur q r : Cursor}

/-- The text from a boundary on is what lies behind the boundary. -/
theorem sliceFrom_offset (h : cur ∈ hay.cursors) :
    hay.sliceFrom cur.offset = String.ofList cur.rest := by
  obtain ⟨passed, hchars, hoffset⟩ := exists_passed h
  unfold sliceFrom
  rw [hchars, hoffset, Utf8.length_encode, Utf8.dropBytes_append]

/-- **The text between two boundaries** stands in front of what lies behind the second. -/
theorem rest_eq_slice_append (h : cur ∈ hay.cursors) (hq : q ∈ cur.onward) :
    cur.rest = (hay.slice cur.offset q.offset).toList ++ q.rest := by
  obtain ⟨passed, hchars, hoffset⟩ := exists_passed h
  obtain ⟨middle, hrest, hmiddle⟩ := Cursor.exists_append_of_mem_onward hq
  unfold slice Utf8.slice
  rw [hmiddle, Nat.add_sub_cancel_left, hchars, hoffset, Utf8.length_encode, Utf8.length_encode,
    Utf8.dropBytes_append, hrest, Utf8.takeBytes_append, String.toList_ofList]

/-- What lies behind a boundary, cut at two more. -/
theorem rest_eq_slice_append_slice (h : cur ∈ hay.cursors) (hq : q ∈ cur.onward)
    (hr : r ∈ q.onward) :
    cur.rest = (hay.slice cur.offset q.offset).toList ++
      (hay.slice q.offset r.offset).toList ++ r.rest := by
  rw [List.append_assoc, ← rest_eq_slice_append (Cursor.mem_onward_trans h hq) hr]
  exact rest_eq_slice_append h hq

/-- The text between two boundaries has as many bytes as the boundaries are apart. -/
theorem byteLength_slice (h : cur ∈ hay.cursors) (hq : q ∈ cur.onward) :
    cur.offset + Utf8.byteLength (hay.slice cur.offset q.offset).toList = q.offset := by
  obtain ⟨middle, hrest, hmiddle⟩ := Cursor.exists_append_of_mem_onward hq
  have hslice := rest_eq_slice_append h hq
  rw [hrest, List.append_cancel_right_eq] at hslice
  rw [← hslice, hmiddle, Utf8.length_encode]

/-- A cut at two boundaries takes a text apart: what lies before, between and behind them. -/
theorem exists_slice (h : cur ∈ hay.cursors) (hq : q ∈ cur.onward) :
    ∃ before, hay.chars = before ++ (hay.slice cur.offset q.offset).toList ++ q.rest ∧
      Utf8.byteLength before = cur.offset := by
  obtain ⟨passed, hchars, hoffset⟩ := exists_passed h
  refine ⟨passed, ?_, ?_⟩
  · rw [List.append_assoc, ← rest_eq_slice_append h hq]
    exact hchars
  · rw [hoffset, Utf8.length_encode]

end Haystack

end LinearRegex
