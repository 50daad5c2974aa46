/-!
# Sparse sets

A set of numbers below a capacity that is emptied in constant time and remembers the order in which
its members came. The members lie in an array in that order, and a second array tells for each
member where it lies; an entry of the second array counts only if the first points back to it, so
stale entries do no harm.

Main statements: `contains_insert`, and that there are never more members than the capacity
(`size_le_capacity`).
-/

namespace LinearRegex

/-- A set of numbers below a capacity, in order of insertion. -/
structure SparseSet where
  /-- The members, in order of insertion. -/
  dense : Array Nat
  /-- Where each member lies; as long as the capacity. -/
  sparse : Array Nat
  /-- Each member is told where it lies. -/
  indexed : ∀ i v : Nat, dense[i]? = some v → sparse[v]? = some i

namespace SparseSet

/-- The empty set for numbers below `capacity`. -/
def empty (capacity : Nat) : SparseSet := ⟨#[], .replicate capacity 0, by simp⟩

instance : Inhabited SparseSet := ⟨empty 0⟩

/-- All members are below this number. -/
def capacity (s : SparseSet) : Nat := s.sparse.size

/-- The number of members. -/
def size (s : SparseSet) : Nat := s.dense.size

/-- Whether there are no members. -/
def isEmpty (s : SparseSet) : Bool := s.dense.isEmpty

/-- The members in order of insertion. -/
def toList (s : SparseSet) : List Nat := s.dense.toList

/-- The member at a place in the order of insertion. -/
def get? (s : SparseSet) (i : Nat) : Option Nat := s.dense[i]?

/-- Whether a number is a member; one beyond the capacity never is. -/
def contains (s : SparseSet) (v : Nat) : Bool :=
  match s.sparse[v]? with
  | some i => s.dense[i]? == some v
  | none => false

/-- The set without its members. -/
def clear (s : SparseSet) : SparseSet := ⟨#[], s.sparse, by simp⟩

/-- The empty set for numbers below another capacity. -/
def resize (s : SparseSet) (capacity : Nat) : SparseSet :=
  ⟨#[], s.sparse.take capacity ++ Array.replicate (capacity - s.sparse.size) 0, by simp⟩

theorem contains_of_getElem? (s : SparseSet) {i v : Nat} (h : s.dense[i]? = some v) :
    s.contains v = true := by
  simp [contains, s.indexed i v h, h]

/-- A member that is appended is told where it lies, and the others still are. -/
theorem indexed_push (s : SparseSet) {v : Nat} (below : v < s.sparse.size)
    (new : s.contains v = false) (i w : Nat) (hw : (s.dense.push v)[i]? = some w) :
    (s.sparse.set v s.dense.size below)[w]? = some i := by
  by_cases hi : i = s.dense.size
  · subst hi
    simp only [Array.getElem?_push_size, Option.some.injEq] at hw
    subst hw
    simp
  · have hw' : s.dense[i]? = some w := by
      simpa [Array.getElem?_push, hi] using hw
    have hne : v ≠ w := by
      rintro rfl
      rw [s.contains_of_getElem? hw'] at new
      simp at new
    rw [Array.getElem?_set_ne below hne]
    exact s.indexed i w hw'

/-- Adds a number below the capacity that is not yet a member. -/
def add (s : SparseSet) (v : Nat) (below : v < s.sparse.size) (new : s.contains v = false) :
    SparseSet :=
  match s, below, new with
  | ⟨dense, sparse, indexed⟩, below, new =>
    let place := dense.size
    ⟨dense.push v, sparse.set v place below, indexed_push ⟨dense, sparse, indexed⟩ below new⟩

/-- Adds a number below the capacity, and tells whether it is new. -/
def insert (s : SparseSet) (v : Nat) : Bool × SparseSet :=
  if h : v < s.sparse.size ∧ s.contains v = false then (true, s.add v h.1 h.2) else (false, s)

/-! ## Membership and size -/

theorem contains_iff (s : SparseSet) (v : Nat) : s.contains v = true ↔ v ∈ s.dense := by
  constructor
  · intro h
    unfold contains at h
    split at h
    · exact Array.mem_of_getElem? (eq_of_beq h)
    · simp at h
  · intro h
    obtain ⟨i, hi⟩ := Array.getElem?_of_mem h
    exact s.contains_of_getElem? hi

theorem lt_capacity_of_mem (s : SparseSet) {v : Nat} (h : v ∈ s.dense) : v < s.capacity := by
  obtain ⟨i, hi⟩ := Array.getElem?_of_mem h
  exact (Array.getElem?_eq_some_iff.mp (s.indexed i v hi)).1

theorem nodup_toList (s : SparseSet) : s.toList.Nodup := by
  rw [toList, List.nodup_iff_pairwise_ne, List.pairwise_iff_getElem]
  intro i j hi hj hij heq
  have h1 := s.indexed i s.dense.toList[i] (by simp at hi ⊢)
  have h2 := s.indexed j s.dense.toList[j] (by simp at hj ⊢)
  rw [heq, h2] at h1
  have := Option.some.inj h1
  omega

/-- Different numbers below a bound are no more than the bound. -/
theorem length_le_of_nodup {n : Nat} {l : List Nat} (hn : l.Nodup) (hl : ∀ v ∈ l, v < n) :
    l.length ≤ n := by
  induction n generalizing l with
  | zero =>
    cases l with
    | nil => simp
    | cons v l => exact absurd (hl v (by simp)) (by omega)
  | succ n ih =>
    by_cases h : n ∈ l
    · have hlt : ∀ v ∈ l.erase n, v < n := by
        intro v hv
        have h1 := hl v (List.mem_of_mem_erase hv)
        have h2 : v ≠ n := fun h => List.Nodup.not_mem_erase hn (h ▸ hv)
        omega
      have := ih (hn.erase n) hlt
      rw [List.length_erase_of_mem h] at this
      omega
    · have : ∀ v ∈ l, v < n := by
        intro v hv
        have h1 := hl v hv
        have h2 : v ≠ n := fun h' => h (h' ▸ hv)
        omega
      exact Nat.le_succ_of_le (ih hn this)

/-- There are never more members than the capacity. -/
theorem size_le_capacity (s : SparseSet) : s.size ≤ s.capacity := by
  have := length_le_of_nodup s.nodup_toList (n := s.capacity)
    (fun v hv => s.lt_capacity_of_mem (by simpa [toList] using hv))
  simpa [toList, size] using this

theorem insert_capacity (s : SparseSet) (v : Nat) : (s.insert v).2.capacity = s.capacity := by
  unfold insert
  split <;> simp [add, capacity]

/-- Room is left before an insertion that adds a member. -/
theorem size_lt_of_insert {s t : SparseSet} {v : Nat} (h : s.insert v = (true, t)) :
    t.size = s.size + 1 ∧ t.capacity = s.capacity ∧ s.size < s.capacity := by
  have hc : t.capacity = s.capacity := by rw [← s.insert_capacity v, h]
  have hs : t.size = s.size + 1 := by
    unfold insert at h
    split at h
    · obtain ⟨-, rfl⟩ := Prod.mk.inj h
      simp [add, size]
    · simp at h
  have := t.size_le_capacity
  omega

/-- An insertion that adds no member changes nothing. -/
theorem insert_false {s t : SparseSet} {v : Nat} (h : s.insert v = (false, t)) : t = s := by
  unfold insert at h
  split at h
  · simp at h
  · exact (Prod.mk.inj h).2.symm

/-- What is a member after an insertion. -/
theorem contains_insert (s : SparseSet) (v w : Nat) :
    (s.insert v).2.contains w = (s.contains w || (v == w && decide (v < s.capacity))) := by
  unfold insert
  split
  · next h =>
    rw [Bool.eq_iff_iff]
    simp only [contains_iff, Bool.or_eq_true, Bool.and_eq_true, beq_iff_eq, decide_eq_true_eq]
    simp only [add, Array.mem_push]
    constructor
    · rintro (h' | rfl)
      · exact Or.inl h'
      · exact Or.inr ⟨rfl, h.1⟩
    · rintro (h' | ⟨rfl, -⟩)
      · exact Or.inl h'
      · exact Or.inr rfl
  · next h =>
    by_cases hv : v = w ∧ v < s.capacity
    · obtain ⟨rfl, hlt⟩ := hv
      have : s.contains v = true := by
        by_cases hc : s.contains v = true
        · exact hc
        · exact absurd ⟨hlt, by simpa using hc⟩ h
      simp [this]
    · have : (v == w && decide (v < s.capacity)) = false := by
        simpa [Bool.and_eq_false_iff] using fun h1 h2 => hv ⟨h1, h2⟩
      simp [this]

/-- The shown form: the members in order of insertion. -/
def text (s : SparseSet) : String :=
  "SparseSet([" ++ ", ".intercalate (s.toList.map toString) ++ "])"

end SparseSet

end LinearRegex
