import LinearRegex.Engine.Threads
import LinearRegex.Proofs.Engine.SparseSet

/-!
# The table of threads

Each instruction has a row of its own in the table of slots: what is recorded for one thread does
not touch the others, and reads back as it was recorded.
-/

namespace LinearRegex

/-! ## Copying slots -/

namespace Slots

@[simp] theorem size_copy (source : Slots) (first : Nat) (target : Slots) (place n : Nat) :
    (copy source first target place n).size = target.size := by
  induction n generalizing target with
  | zero => rfl
  | succ n ih => rw [copy, ih, Array.size_setIfInBounds]

theorem getElem?_copy (source : Slots) (first : Nat) (target : Slots) (place n i : Nat) :
    (copy source first target place n)[i]? =
      if place ≤ i ∧ i < place + n ∧ i < target.size then
        some (source.getD (first + (i - place)) none)
      else target[i]? := by
  induction n generalizing target with
  | zero =>
    rw [copy, if_neg (by omega)]
  | succ n ih =>
    rw [copy, ih, Array.size_setIfInBounds, Array.getElem?_setIfInBounds]
    by_cases hi : place + n = i
    · subst hi
      rw [if_neg (by omega), if_pos rfl]
      by_cases hlt : place + n < target.size
      · rw [if_pos hlt, if_pos (by omega)]
        congr 3
        omega
      · rw [if_neg hlt, if_neg (by omega), Array.getElem?_eq_none (by omega)]
    · rw [if_neg hi]
      by_cases h : place ≤ i ∧ i < place + n ∧ i < target.size
      · rw [if_pos h, if_pos (by omega)]
      · rw [if_neg h, if_neg (by omega)]

@[simp] theorem size_resize (slots : Slots) (n : Nat) : (slots.resize n).size = n := by
  simp only [resize, Array.size_append, Array.take_eq_extract, Array.size_extract,
    Array.size_replicate]
  omega

theorem resize_of_size_eq {slots : Slots} {n : Nat} (h : slots.size = n) :
    slots.resize n = slots := by
  subst h
  simp [resize]

end Slots

/-! ## Rows -/

namespace Threads

variable {t : Threads} {n width ip jp : Nat} {slots : Slots}

/-- The slots that are recorded for the thread at an instruction. -/
def row (t : Threads) (ip : Nat) : Slots := t.load ip (.replicate t.width none)

/-- A list of threads has room for `n` instructions and `width` slots for each. -/
structure Fits (t : Threads) (n width : Nat) : Prop where
  capacity : t.set.capacity = n
  table : t.table.size = n * width
  width_eq : t.width = width

@[simp] theorem size_load (t : Threads) (ip : Nat) (slots : Slots) :
    (t.load ip slots).size = slots.size := Slots.size_copy _ _ _ _ _

@[simp] theorem size_row (t : Threads) (ip : Nat) : (t.row ip).size = t.width := by
  rw [row, size_load, Array.size_replicate]

theorem getElem?_load (h : slots.size = t.width) (i : Nat) :
    (t.load ip slots)[i]? =
      if i < t.width then some (t.table.getD (ip * t.width + i) none) else none := by
  rw [load, Slots.getElem?_copy]
  by_cases hi : i < t.width
  · rw [if_pos (by omega), if_pos hi, Nat.sub_zero]
  · rw [if_neg (by omega), if_neg hi, Array.getElem?_eq_none (by omega)]

/-- What a row is copied over makes no difference. -/
theorem load_eq_row (h : slots.size = t.width) : t.load ip slots = t.row ip := by
  refine Array.ext_getElem? ?_
  intro i
  rw [row, getElem?_load h, getElem?_load Array.size_replicate]

/-- Rows of different instructions do not meet. -/
theorem row_disjoint {i j : Nat} (hne : ip ≠ jp) (hi : i < width) (hj : j < width) :
    ip * width + i ≠ jp * width + j := by
  intro heq
  rcases Nat.lt_or_gt_of_ne hne with h | h
  · have := Nat.mul_le_mul_right width (Nat.succ_le_of_lt h)
    rw [Nat.succ_mul] at this
    omega
  · have := Nat.mul_le_mul_right width (Nat.succ_le_of_lt h)
    rw [Nat.succ_mul] at this
    omega

theorem getElem?_table_store (t : Threads) (ip : Nat) (slots : Slots) (i : Nat) :
    (t.store ip slots).table[i]? =
      if ip * t.width ≤ i ∧ i < ip * t.width + t.width ∧ i < t.table.size then
        some (slots.getD (i - ip * t.width) none)
      else t.table[i]? := by
  rw [store, Slots.getElem?_copy, Nat.zero_add]

@[simp] theorem width_store (t : Threads) (ip : Nat) (slots : Slots) :
    (t.store ip slots).width = t.width := rfl

@[simp] theorem set_store (t : Threads) (ip : Nat) (slots : Slots) :
    (t.store ip slots).set = t.set := rfl

/-- What is recorded for a thread reads back. -/
theorem row_store_self (ht : t.Fits n width) (hip : ip < n) (hs : slots.size = width) :
    (t.store ip slots).row ip = slots := by
  have hroom : ip * t.width + t.width ≤ t.table.size := by
    have := Nat.mul_le_mul_right width (Nat.succ_le_of_lt hip)
    rw [Nat.succ_mul] at this
    rw [ht.table, ht.width_eq]
    exact this
  refine Array.ext_getElem? ?_
  intro i
  rw [row, getElem?_load Array.size_replicate, width_store]
  by_cases hi : i < t.width
  · rw [if_pos hi, Array.getD_eq_getD_getElem?, getElem?_table_store, if_pos (by omega),
      Option.getD_some, Nat.add_sub_cancel_left, Array.getD_eq_getD_getElem?]
    have hlt : i < slots.size := by rw [hs, ← ht.width_eq]; exact hi
    rw [Array.getElem?_eq_getElem hlt, Option.getD_some]
  · rw [if_neg hi, Array.getElem?_eq_none (by rw [hs, ← ht.width_eq]; omega)]

/-- What is recorded for a thread leaves the other rows alone. -/
theorem row_store_of_ne (t : Threads) (slots : Slots) (hne : jp ≠ ip) :
    (t.store ip slots).row jp = t.row jp := by
  refine Array.ext_getElem? ?_
  intro i
  rw [row, row, getElem?_load Array.size_replicate, getElem?_load Array.size_replicate,
    width_store]
  by_cases hi : i < t.width
  · -- A slot of one row that lay in the other would belong to both instructions.
    rw [if_pos hi, if_pos hi, Array.getD_eq_getD_getElem?, getElem?_table_store, if_neg,
      ← Array.getD_eq_getD_getElem?]
    rintro ⟨h₁, h₂, -⟩
    refine row_disjoint hne hi (j := jp * t.width + i - ip * t.width) (by omega) ?_
    omega
  · rw [if_neg hi, if_neg hi]

theorem Fits.store (h : t.Fits n width) (ip : Nat) (slots : Slots) :
    (t.store ip slots).Fits n width where
  capacity := h.capacity
  table := by rw [Threads.store, Slots.size_copy]; exact h.table
  width_eq := h.width_eq

theorem Fits.insert {set set' : SparseSet} {table : Slots} {w : Nat} {b : Bool}
    (h : Fits ⟨set, table, w⟩ n width) (hi : set.insert ip = (b, set')) :
    Fits ⟨set', table, w⟩ n width where
  capacity := by
    have := set.insert_capacity ip
    rw [hi] at this
    exact this.trans h.capacity
  table := h.table
  width_eq := h.width_eq

theorem Fits.clear (h : t.Fits n width) : t.clear.Fits n width where
  capacity := h.capacity
  table := h.table
  width_eq := h.width_eq

/-- Whatever it held, a list of threads has room once it is prepared. -/
theorem fits_prepare (t : Threads) (n width : Nat) : (t.prepare n width).Fits n width where
  capacity := by
    unfold prepare
    dsimp only
    split
    · assumption
    · exact SparseSet.capacity_resize _ _
  table := Slots.size_resize _ _
  width_eq := rfl

@[simp] theorem set_clear (t : Threads) : t.clear.set = t.set.clear := rfl

end Threads

end LinearRegex
