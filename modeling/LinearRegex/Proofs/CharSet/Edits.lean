import LinearRegex.Proofs.CharSet.Canonical
import Mathlib.Data.Set.Basic
import Mathlib.Order.Interval.Set.Defs
import Mathlib.Order.Nat
import Mathlib.Tactic.ByContra

/-!
# Sets of code points that are built step by step

A set is built from the empty one by adding intervals and taking complements. Whatever the steps
are, its intervals are sorted, disjoint and not abutting, and its members are those of the
mathematical set that is built by the same unions and complements. As the members tell the
intervals, it makes no difference to the intervals in which way a set is built.

Main statements: `Canonical.ext`, and `edited_canonical` for sequences of steps.
-/

namespace LinearRegex.CharSet

variable {s t : CharSet} {a b : Interval} {as bs : List Interval} {c : Nat}

/-! ## The members tell the intervals -/

theorem memList_of_le (hfirst : a.first ≤ c) (hlast : c ≤ a.last) : MemList c (a :: as) :=
  memList_cons.mpr (Or.inl ⟨hfirst, hlast⟩)

namespace CanonicalList

theorem last_lt_of_memList (h : CanonicalList (a :: as)) (hc : MemList c as) : a.last + 1 < c :=
  Nat.lt_of_succ_le (le_of_memList h.head_lt hc)

theorem le_maxCodePoint_of_memList (h : CanonicalList as) (hc : MemList c as) :
    c ≤ maxCodePoint := by
  obtain ⟨iv, hiv, -, hlast⟩ := hc
  exact Nat.le_trans hlast (h.proper iv hiv).bounded

theorem first_le_of_memList (h : CanonicalList (a :: as)) (hc : MemList c (a :: as)) :
    a.first ≤ c := le_of_memList h.first_le hc

/-- Right behind the first interval there is a gap. -/
theorem not_memList_succ_last (h : CanonicalList (a :: as)) : ¬ MemList (a.last + 1) (a :: as) := by
  intro hc
  rcases memList_cons.mp hc with ⟨-, hlast⟩ | hc
  · omega
  · exact Nat.lt_irrefl _ (h.last_lt_of_memList hc)

/-- Where all members are members of another list, the other list does not begin later, and if it
begins at the same place then its first interval reaches as far. -/
theorem head_le (ha : CanonicalList (a :: as)) (hb : CanonicalList (b :: bs))
    (h : ∀ c, MemList c (a :: as) → MemList c (b :: bs)) :
    b.first ≤ a.first ∧ (b.first = a.first → a.last ≤ b.last) := by
  have hordered := (ha.proper a List.mem_cons_self).ordered
  refine ⟨hb.first_le_of_memList (h _ (memList_of_le (Nat.le_refl _) hordered)), fun hfirst => ?_⟩
  by_contra hlast
  have := (hb.proper b List.mem_cons_self).ordered
  exact hb.not_memList_succ_last (h _ (memList_of_le (by omega) (by omega)))

/-- **The members tell the intervals.** -/
theorem ext (ha : CanonicalList as) (hb : CanonicalList bs)
    (h : ∀ c, MemList c as ↔ MemList c bs) : as = bs := by
  induction as generalizing bs with
  | nil =>
    cases bs with
    | nil => rfl
    | cons b bs =>
      have hordered := (hb.proper b List.mem_cons_self).ordered
      exact absurd ((h b.first).mpr (memList_of_le (Nat.le_refl _) hordered)) memList_nil
  | cons a as ih =>
    cases bs with
    | nil =>
      have hordered := (ha.proper a List.mem_cons_self).ordered
      exact absurd ((h a.first).mp (memList_of_le (Nat.le_refl _) hordered)) memList_nil
    | cons b bs =>
      -- Each first interval begins no later than the other and reaches as far.
      obtain ⟨hfirst, hlast⟩ := head_le ha hb fun c => (h c).mp
      obtain ⟨hfirst', hlast'⟩ := head_le hb ha fun c => (h c).mpr
      have heq := Nat.le_antisymm hfirst hfirst'
      obtain rfl : a = b := by
        have := Nat.le_antisymm (hlast heq) (hlast' heq.symm)
        cases a
        cases b
        simp_all
      have htail : ∀ c, MemList c as ↔ MemList c bs := by
        intro c
        have hc := h c
        rw [memList_cons, memList_cons] at hc
        constructor
        · intro hm
          have := ha.last_lt_of_memList hm
          exact (hc.mp (Or.inr hm)).resolve_left fun hle => by omega
        · intro hm
          have := hb.last_lt_of_memList hm
          exact (hc.mpr (Or.inr hm)).resolve_left fun hle => by omega
      rw [ih ha.tail hb.tail htail]

end CanonicalList

/-- **Each set has one form**: sets with the same members have the same intervals. -/
theorem Canonical.ext (hs : s.Canonical) (ht : t.Canonical) (h : ∀ c, Mem c s ↔ Mem c t) :
    s = t := by
  have hlists : s.intervals.toList = t.intervals.toList := CanonicalList.ext hs ht h
  cases s
  cases t
  exact congrArg CharSet.mk (Array.toList_inj.mp hlists)

theorem Canonical.le_maxCodePoint (hs : s.Canonical) (hc : Mem c s) : c ≤ maxCodePoint :=
  hs.le_maxCodePoint_of_memList hc

/-- What is no code point is in no complement either. -/
theorem mem_compl_iff (hs : s.Canonical) : Mem c s.compl ↔ c ≤ maxCodePoint ∧ ¬ Mem c s := by
  constructor
  · intro hc
    have hle := hs.compl.le_maxCodePoint hc
    exact ⟨hle, (mem_compl hs hle).mp hc⟩
  · rintro ⟨hle, hc⟩
    exact (mem_compl hs hle).mpr hc

/-- **The complement of the complement** is the set itself. -/
theorem compl_compl (hs : s.Canonical) : s.compl.compl = s := by
  refine hs.compl.compl.ext hs fun c => ?_
  rw [mem_compl_iff hs.compl, mem_compl_iff hs]
  constructor
  · rintro ⟨hle, hc⟩
    by_contra hm
    exact hc ⟨hle, hm⟩
  · exact fun hm => ⟨hs.le_maxCodePoint hm, fun hc => hc.2 hm⟩

/-! ## Steps -/

/-- A step in building a set. -/
inductive Edit where
  | insert (iv : Interval)
  | insertCode (c : Nat)
  | insertAll (ivs : List Interval)
  | compl

namespace Edit

/-- Whether a step adds proper intervals of code points only. -/
def Proper : Edit → Prop
  | insert iv => iv.Proper
  | insertCode c => c ≤ maxCodePoint
  | insertAll ivs => ∀ iv ∈ ivs, iv.Proper
  | compl => True

/-- The set after a step. -/
def apply (s : CharSet) : Edit → CharSet
  | insert iv => s.insert iv
  | insertCode c => s.insertCode c
  | insertAll ivs => s.insertAll ivs
  | compl => s.compl

/-- What a step makes of a mathematical set: a union, or the complement among the code points. -/
def applyTo (m : Set Nat) : Edit → Set Nat
  | insert iv => m ∪ Set.Icc iv.first iv.last
  | insertCode c => m ∪ {c}
  | insertAll ivs => m ∪ {c | ∃ iv ∈ ivs, c ∈ Set.Icc iv.first iv.last}
  | compl => Set.Iic maxCodePoint \ m

theorem proper_single (h : c ≤ maxCodePoint) : (Interval.single c).Proper := ⟨Nat.le_refl c, h⟩

/-- **A step keeps the form.** -/
theorem canonical_apply {e : Edit} (hs : s.Canonical) (he : e.Proper) : (e.apply s).Canonical := by
  cases e with
  | insert iv => exact hs.insert he
  | insertCode c => exact hs.insert (proper_single he)
  | insertAll ivs => exact hs.insertAll he
  | compl => exact hs.compl

/-- **A step changes the members** as it changes the mathematical set. -/
theorem mem_apply {e : Edit} {m : Set Nat} (hs : s.Canonical) (he : e.Proper)
    (h : ∀ c, Mem c s ↔ c ∈ m) : Mem c (e.apply s) ↔ c ∈ e.applyTo m := by
  cases e with
  | insert iv => exact (mem_insert hs).trans (or_comm.trans (or_congr_left (h c)))
  | insertCode d =>
    refine (mem_insert hs).trans (or_comm.trans (or_congr (h c) ?_))
    exact ⟨fun hc => Nat.le_antisymm hc.2 hc.1, fun hc => hc ▸ ⟨Nat.le_refl _, Nat.le_refl _⟩⟩
  | insertAll ivs => exact (mem_insertAll hs he).trans (or_comm.trans (or_congr_left (h c)))
  | compl => exact (mem_compl_iff hs).trans (and_congr_right fun _ => not_congr (h c))

end Edit

/-! ## Sequences of steps -/

/-- The set that steps build from the empty one. -/
def edited (edits : List Edit) : CharSet := edits.foldl Edit.apply empty

/-- The mathematical set that steps build from the empty one. -/
def members (edits : List Edit) : Set Nat := edits.foldl Edit.applyTo ∅

/-- Steps lead from a set in its form, with certain members, to such a set. -/
theorem foldl_apply {edits : List Edit} {m : Set Nat} (hs : s.Canonical)
    (h : ∀ c, Mem c s ↔ c ∈ m) (hedits : ∀ e ∈ edits, e.Proper) :
    (edits.foldl Edit.apply s).Canonical ∧
      ∀ c, Mem c (edits.foldl Edit.apply s) ↔ c ∈ edits.foldl Edit.applyTo m := by
  induction edits generalizing s m with
  | nil => exact ⟨hs, h⟩
  | cons e edits ih =>
    obtain ⟨he, hedits⟩ := List.forall_mem_cons.mp hedits
    exact ih (Edit.canonical_apply hs he) (fun c => Edit.mem_apply hs he h) hedits

/-- **A set of code points is canonical, however it is built.** After any steps that add intervals
of code points or take the complement, the intervals are sorted, disjoint and not abutting; the
members are those of the mathematical set that the same unions and complements build; taking the
complement twice gives the set back; and steps that build the same members build the same
intervals. -/
theorem edited_canonical {edits : List Edit} (h : ∀ e ∈ edits, e.Proper) :
    (edited edits).Canonical ∧
      (∀ c, (edited edits).contains c = true ↔ c ∈ members edits) ∧
      (edited edits).compl.compl = edited edits ∧
      ∀ others : List Edit, (∀ e ∈ others, e.Proper) →
        ((edited others).intervals = (edited edits).intervals ↔ members others = members edits) := by
  have hbuilt : ∀ {edits : List Edit}, (∀ e ∈ edits, e.Proper) → (edited edits).Canonical ∧
      ∀ c, Mem c (edited edits) ↔ c ∈ members edits := fun hedits =>
    foldl_apply canonical_empty (fun c => iff_of_false mem_empty (Set.notMem_empty c)) hedits
  obtain ⟨hcanonical, hmem⟩ := hbuilt h
  refine ⟨hcanonical, fun c => (contains_iff hcanonical).trans (hmem c), compl_compl hcanonical,
    fun others hothers => ?_⟩
  obtain ⟨hcanonical', hmem'⟩ := hbuilt hothers
  constructor
  · intro heq
    ext c
    rw [← hmem, ← hmem', Mem, Mem, heq]
  · intro heq
    have hsame : ∀ c, Mem c (edited others) ↔ Mem c (edited edits) := fun c => by
      rw [hmem, hmem', heq]
    rw [hcanonical'.ext hcanonical hsame]

/-- Intervals that touch, overlap and fill a gap, added in another order and before a complement
that reaches both ends. -/
theorem edited_canonical_orders : ∃ edits others : List Edit,
    edits = [.insert ⟨1, 3⟩, .insertCode 0, .insertAll [⟨7, 9⟩, ⟨3, 5⟩], .insertCode 6, .compl] ∧
    others = [.insertAll [⟨6, 9⟩, ⟨0, 2⟩], .compl, .compl, .insert ⟨2, 6⟩, .compl] ∧
    (∀ e ∈ edits, e.Proper) ∧ (∀ e ∈ others, e.Proper) ∧ (edited edits).Canonical ∧
    (edited edits).intervals = #[⟨10, maxCodePoint⟩] ∧
    (∀ c, (edited edits).contains c = true ↔ c ∈ members edits) ∧
    (edited edits).compl.compl = edited edits ∧ members others = members edits := by
  let edits : List Edit :=
    [.insert ⟨1, 3⟩, .insertCode 0, .insertAll [⟨7, 9⟩, ⟨3, 5⟩], .insertCode 6, .compl]
  let others : List Edit := [.insertAll [⟨6, 9⟩, ⟨0, 2⟩], .compl, .compl, .insert ⟨2, 6⟩, .compl]
  have hproper : ∀ {first last : Nat}, first ≤ last → last ≤ maxCodePoint →
      (Interval.mk first last).Proper := fun h h' => ⟨h, h'⟩
  have hedits : ∀ e ∈ edits, e.Proper := by
    simp only [edits, List.forall_mem_cons, List.not_mem_nil, false_implies, implies_true,
      Edit.Proper, and_true]
    exact ⟨hproper (by decide) (by decide), by decide,
      ⟨hproper (by decide) (by decide), hproper (by decide) (by decide)⟩, by decide⟩
  have hothers : ∀ e ∈ others, e.Proper := by
    simp only [others, List.forall_mem_cons, List.not_mem_nil, false_implies, implies_true,
      Edit.Proper, and_true, true_and]
    exact ⟨⟨hproper (by decide) (by decide), hproper (by decide) (by decide)⟩,
      hproper (by decide) (by decide)⟩
  obtain ⟨hcanonical, hmem, hcompl, hsame⟩ := edited_canonical hedits
  refine ⟨edits, others, rfl, rfl, hedits, hothers, hcanonical, by decide +kernel, hmem,
    hcompl, (hsame others hothers).mp (by decide +kernel)⟩

end LinearRegex.CharSet
