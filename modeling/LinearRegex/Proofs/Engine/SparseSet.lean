import LinearRegex.Engine.SparseSet

/-!
# Sparse sets remember the order of insertion

The array that tells where members lie is never emptied. Its entries grow stale when the set is
cleared, point at live places again when other members come, and are cut off or kept when the set
gets another capacity. None of this can be seen: an entry counts only if the place it tells points
back, so what a set answers depends on the numbers that were inserted since it was emptied last, and
on nothing before.

Main statements: `perform_tracks` for one operation, and `run_insertionOrdered` for any sequence of
them.
-/

namespace LinearRegex.SparseSet

variable {s t : SparseSet} {v : Nat}

/-! ## Members -/

theorem contains_iff_mem_toList (s : SparseSet) : s.contains v = true ↔ v ∈ s.toList := by
  rw [contains_iff, toList, Array.mem_toList_iff]

theorem toList_eq_nil_iff (s : SparseSet) : s.toList = [] ↔ s.isEmpty = true := by
  unfold toList isEmpty
  rw [Array.toList_eq_nil_iff, Array.isEmpty_iff]

theorem length_toList_le (s : SparseSet) : s.toList.length ≤ s.capacity := by
  simpa [toList, size] using s.size_le_capacity

/-- The places up to the number of members have the members in order. -/
theorem map_get?_range (s : SparseSet) : (List.range s.size).map s.get? = s.toList.map some := by
  refine List.ext_getElem (by simp [size, toList]) fun i hi _ => ?_
  have hlt : i < s.dense.size := by simpa [size] using hi
  simp [get?, toList, hlt]

@[simp] theorem toList_empty (n : Nat) : (empty n).toList = [] := rfl

@[simp] theorem capacity_empty (n : Nat) : (empty n).capacity = n := Array.size_replicate

@[simp] theorem toList_clear (s : SparseSet) : s.clear.toList = [] := rfl

@[simp] theorem capacity_clear (s : SparseSet) : s.clear.capacity = s.capacity := rfl

@[simp] theorem isEmpty_clear (s : SparseSet) : s.clear.isEmpty = true := rfl

@[simp] theorem contains_clear (s : SparseSet) (v : Nat) : s.clear.contains v = false := by
  unfold contains clear
  split <;> simp

@[simp] theorem toList_resize (s : SparseSet) (n : Nat) : (s.resize n).toList = [] := rfl

@[simp] theorem capacity_resize (s : SparseSet) (n : Nat) : (s.resize n).capacity = n := by
  simp only [capacity, resize, Array.size_append, Array.take_eq_extract, Array.size_extract,
    Array.size_replicate]
  omega

/-! ## New members come last -/

theorem insert_eq_true (h : s.insert v = (true, t)) :
    t.toList = s.toList ++ [v] ∧ s.contains v = false ∧ v < s.capacity := by
  unfold insert at h
  split at h
  · next hv =>
    obtain ⟨-, rfl⟩ := Prod.mk.inj h
    exact ⟨by simp [toList, add], hv.2, hv.1⟩
  · simp at h

theorem insert_eq_false (h : s.insert v = (false, t)) :
    t = s ∧ (s.contains v = true ∨ s.capacity ≤ v) := by
  refine ⟨insert_false h, ?_⟩
  unfold insert at h
  split at h
  · simp at h
  · next hv =>
    by_cases hlt : v < s.capacity
    · refine Or.inl ?_
      by_cases hc : s.contains v = true
      · exact hc
      · exact absurd ⟨hlt, by simpa using hc⟩ hv
    · exact Or.inr (Nat.not_lt.mp hlt)

theorem contains_of_insert_true (h : s.insert v = (true, t)) (w : Nat) :
    t.contains w = true ↔ s.contains w = true ∨ w = v := by
  have hc := s.contains_insert v w
  rw [h] at hc
  have hlt : v < s.capacity := (insert_eq_true h).2.2
  rw [hc, Bool.or_eq_true, Bool.and_eq_true, beq_iff_eq, decide_eq_true_eq]
  constructor
  · rintro (h | ⟨h, -⟩)
    · exact Or.inl h
    · exact Or.inr h.symm
  · rintro (h | h)
    · exact Or.inl h
    · exact Or.inr ⟨h.symm, hlt⟩

theorem insert_of_mem (h : v ∈ s.toList) : s.insert v = (false, s) := by
  refine dif_neg fun hv => ?_
  rw [(contains_iff_mem_toList s).mpr h] at hv
  exact absurd hv.2 (by simp)

theorem insert_of_not_mem (hlt : v < s.capacity) (h : v ∉ s.toList) :
    s.insert v = (true, (s.insert v).2) := by
  refine Prod.ext ?_ rfl
  cases hi : s.insert v with
  | mk new t =>
    cases new with
    | true => rfl
    | false =>
      obtain ⟨-, hin | hle⟩ := insert_eq_false hi
      · exact absurd ((contains_iff_mem_toList s).mp hin) h
      · exact absurd hlt (Nat.not_lt.mpr hle)

/-! ## Operations -/

/-- What can be done with a set. -/
inductive Operation where
  | insert (v : Nat)
  | contains (v : Nat)
  | clear
  | resize (capacity : Nat)
deriving DecidableEq

/-- What the set answers to an operation, and the set behind it. -/
def perform (s : SparseSet) : Operation → Option Bool × SparseSet
  | .insert v =>
    match s.insert v with
    | (new, s) => (some new, s)
  | .contains v => (some (s.contains v), s)
  | .clear => (none, s.clear)
  | .resize capacity => (none, s.resize capacity)

/-- The answers to operations one after the other, and the set behind them. -/
def run (s : SparseSet) : List Operation → List (Option Bool) × SparseSet
  | [] => ([], s)
  | op :: ops =>
    match s.perform op with
    | (answer, s) =>
      match s.run ops with
      | (answers, s) => (answer :: answers, s)

namespace Operation

/-- The capacity behind an operation. -/
def capacityFrom (capacity : Nat) : Operation → Nat
  | resize capacity => capacity
  | _ => capacity

/-- Whether an operation inserts nothing but a number below the capacity. -/
def Fits (capacity : Nat) : Operation → Prop
  | insert v => v < capacity
  | _ => True

/-- Whether each of several operations fits the capacity in force. -/
def AllFit (capacity : Nat) : List Operation → Prop
  | [] => True
  | op :: ops => op.Fits capacity ∧ AllFit (op.capacityFrom capacity) ops

/-- The numbers that have been inserted since the set was last emptied, in order and as often as
they were: those behind an operation from those in front of it. -/
def insertedFrom (inserted : List Nat) : Operation → List Nat
  | insert v => inserted ++ [v]
  | contains _ => inserted
  | clear => []
  | resize _ => []

/-- What an operation has to answer where some numbers have been inserted since the set was last
emptied: whether the number is new, or whether it is a member. -/
def answerFrom (inserted : List Nat) : Operation → Option Bool
  | insert v => some (v ∉ inserted)
  | contains v => some (v ∈ inserted)
  | clear => none
  | resize _ => none

/-- What operations one after the other have to answer. -/
def answersFrom (inserted : List Nat) : List Operation → List (Option Bool)
  | [] => []
  | op :: ops => op.answerFrom inserted :: answersFrom (op.insertedFrom inserted) ops

/-- The numbers that operations on a new set have inserted since they last emptied it. -/
def inserted (ops : List Operation) : List Nat := ops.foldl insertedFrom []

instance (capacity : Nat) (op : Operation) : Decidable (op.Fits capacity) := by
  cases op <;> unfold Fits <;> infer_instance

instance decidableAllFit (capacity : Nat) : (ops : List Operation) →
    Decidable (AllFit capacity ops)
  | [] => isTrue trivial
  | op :: ops =>
    have := decidableAllFit (op.capacityFrom capacity) ops
    inferInstanceAs (Decidable (_ ∧ _))

end Operation

open Operation

/-! ## Sequences of operations -/

/-- Whether a set has just the numbers that have been inserted, each at its first place. -/
structure Tracks (s : SparseSet) (capacity : Nat) (inserted : List Nat) : Prop where
  capacity_eq : s.capacity = capacity
  toList_eq : s.toList = inserted.eraseDups

theorem tracks_empty (n : Nat) : (empty n).Tracks n [] := ⟨capacity_empty n, toList_empty n⟩

/-- A number behind others is a new one, or stands at its first place already. -/
theorem eraseDups_concat (vs : List Nat) (v : Nat) :
    (vs ++ [v]).eraseDups = if v ∈ vs then vs.eraseDups else vs.eraseDups ++ [v] := by
  rw [List.eraseDups_append]
  split
  · next h => simp [List.removeAll, h]
  · next h => simp [List.removeAll, h, List.eraseDups_cons]

namespace Tracks

variable {capacity : Nat} {inserted : List Nat}

theorem mem_toList_iff (h : s.Tracks capacity inserted) : v ∈ s.toList ↔ v ∈ inserted := by
  rw [h.toList_eq, List.mem_eraseDups]

theorem contains_iff (h : s.Tracks capacity inserted) : s.contains v = true ↔ v ∈ inserted :=
  (contains_iff_mem_toList s).trans h.mem_toList_iff

end Tracks

/-- **An operation answers as it has to**, and the set goes on to tell what has been inserted. -/
theorem perform_tracks {capacity : Nat} {inserted : List Nat} {op : Operation}
    (h : s.Tracks capacity inserted) (hop : op.Fits capacity) :
    (s.perform op).1 = op.answerFrom inserted ∧
      (s.perform op).2.Tracks (op.capacityFrom capacity) (op.insertedFrom inserted) := by
  cases op with
  | insert v =>
    have hperform : s.perform (.insert v) = (some (s.insert v).1, (s.insert v).2) := rfl
    rw [hperform]
    by_cases hv : v ∈ inserted
    · -- The number is a member, and nothing changes.
      rw [insert_of_mem (h.mem_toList_iff.mpr hv)]
      refine ⟨by simp [answerFrom, hv], h.capacity_eq, ?_⟩
      rw [insertedFrom, eraseDups_concat, if_pos hv, h.toList_eq]
    · have hlt : v < s.capacity := h.capacity_eq ▸ hop
      have hnew := insert_of_not_mem hlt fun hmem => hv (h.mem_toList_iff.mp hmem)
      refine ⟨by simp [answerFrom, hv, congrArg Prod.fst hnew],
        (s.insert_capacity v).trans h.capacity_eq, ?_⟩
      rw [insertedFrom, eraseDups_concat, if_neg hv, (insert_eq_true hnew).1, h.toList_eq]
  | contains v =>
    refine ⟨congrArg some ?_, h⟩
    rw [Bool.eq_iff_iff, h.contains_iff, decide_eq_true_iff]
  | clear => exact ⟨rfl, h.capacity_eq, toList_clear s⟩
  | resize capacity => exact ⟨rfl, capacity_resize s capacity, toList_resize s capacity⟩

/-- Operations one after the other answer as they have to. -/
theorem run_tracks {capacity : Nat} {inserted : List Nat} {ops : List Operation}
    (h : s.Tracks capacity inserted) (hops : AllFit capacity ops) :
    (s.run ops).1 = answersFrom inserted ops ∧
      (s.run ops).2.Tracks (ops.foldl capacityFrom capacity) (ops.foldl insertedFrom inserted) := by
  induction ops generalizing s capacity inserted with
  | nil => exact ⟨rfl, h⟩
  | cons op ops ih =>
    obtain ⟨hanswer, htracks⟩ := perform_tracks h hops.1
    obtain ⟨hanswers, htracks⟩ := ih htracks hops.2
    refine ⟨?_, htracks⟩
    rw [answersFrom, ← hanswer, ← hanswers]
    rfl

/-- **A sparse set is a set in order of insertion**, whatever has been done with it. After any
operations on a new set that insert numbers below the capacity in force, each insertion has told
whether the number was new, and each question whether the number was a member, numbers beyond the
capacity included, as goes by the numbers inserted since the set was last emptied. The places up to
the number of members have the numbers inserted since then, each once, in the order in which they
came first. There are never more members than the capacity, which is the one given last. -/
theorem run_insertionOrdered {n : Nat} {ops : List Operation} (h : AllFit n ops) :
    ((empty n).run ops).1 = answersFrom [] ops ∧
      (List.range ((empty n).run ops).2.size).map ((empty n).run ops).2.get? =
        (inserted ops).eraseDups.map some ∧
      ((empty n).run ops).2.toList.Nodup ∧
      (∀ v, ((empty n).run ops).2.contains v = true ↔ v ∈ inserted ops) ∧
      ((empty n).run ops).2.size ≤ ((empty n).run ops).2.capacity ∧
      ((empty n).run ops).2.capacity = ops.foldl capacityFrom n := by
  obtain ⟨hanswers, htracks⟩ := run_tracks (tracks_empty n) h
  refine ⟨hanswers, ?_, nodup_toList _, fun v => htracks.contains_iff, size_le_capacity _,
    htracks.capacity_eq⟩
  rw [map_get?_range, htracks.toList_eq]
  rfl

/-- After the set is cleared, the entry of 2 is stale and then points at the place of 1; the entries
of 0 and 1 are kept when the set shrinks, and those behind them are new when it grows. -/
theorem run_insertionOrdered_stale : ∃ ops : List Operation, ops =
      [.insert 2, .insert 1, .insert 2, .clear, .contains 2, .insert 1, .contains 2, .resize 2,
        .insert 1, .resize 5, .contains 1, .insert 4, .contains 1, .insert 0, .insert 4,
        .contains 9] ∧
    AllFit 4 ops ∧
    ((empty 4).run ops).1 =
      [some true, some true, some false, none, some false, some true, some false, none,
        some true, none, some false, some true, some false, some true, some false, some false] ∧
    (List.range ((empty 4).run ops).2.size).map ((empty 4).run ops).2.get? = [some 4, some 0] ∧
    ((empty 4).run ops).2.capacity = 5 := by
  let ops : List Operation :=
    [.insert 2, .insert 1, .insert 2, .clear, .contains 2, .insert 1, .contains 2, .resize 2,
      .insert 1, .resize 5, .contains 1, .insert 4, .contains 1, .insert 0, .insert 4, .contains 9]
  have hfit : AllFit 4 ops := by decide
  obtain ⟨hanswers, hplaces, -, -, -, hcapacity⟩ := run_insertionOrdered hfit
  exact ⟨ops, rfl, hfit, hanswers.trans (by decide), hplaces.trans (by decide), hcapacity⟩

end LinearRegex.SparseSet
