import LinearRegex.CharClass
import LinearRegex.Proofs.Sorted

/-!
# Sets of code points are canonical

The intervals of a set are sorted, disjoint and do not abut, and no operation changes that. A code
point is a member if it lies in one of them.

An interval is added by binary search for the intervals it merges with: `exists_split_insert` says
where these stand and what takes their place.

Main statements: `Canonical.insert`, `Canonical.union` and `Canonical.compl`, and for the members
`contains_iff`, `mem_insert`, `mem_union` and `mem_compl`.
-/

namespace LinearRegex

/-- An interval that has a member, and only code points for members. -/
structure Interval.Proper (iv : Interval) : Prop where
  ordered : iv.first ≤ iv.last
  bounded : iv.last ≤ maxCodePoint

namespace CharSet

variable {s t : CharSet} {iv a b : Interval} {ivs : List Interval} {c : Nat}

/-- Whether a code point lies in one of several intervals. -/
def MemList (c : Nat) (ivs : List Interval) : Prop := ∃ iv ∈ ivs, iv.first ≤ c ∧ c ≤ iv.last

/-- Intervals that are sorted, disjoint and not abutting. -/
structure CanonicalList (ivs : List Interval) : Prop where
  sorted : ivs.Pairwise (·.precedes · = true)
  proper : ∀ iv ∈ ivs, iv.Proper

/-- A set in its one form. -/
def Canonical (s : CharSet) : Prop := CanonicalList s.intervals.toList

/-- Whether a code point is a member. -/
def Mem (c : Nat) (s : CharSet) : Prop := MemList c s.intervals.toList

/-! ## Lists of intervals -/

@[simp] theorem memList_nil : ¬ MemList c [] := by
  rintro ⟨iv, h, -⟩
  simp at h

@[simp] theorem memList_cons :
    MemList c (iv :: ivs) ↔ (iv.first ≤ c ∧ c ≤ iv.last) ∨ MemList c ivs := by
  simp [MemList]

/-- Where no interval begins before a place, no member lies before it. -/
theorem le_of_memList {n : Nat} (h : ∀ x ∈ ivs, n ≤ x.first) (hc : MemList c ivs) : n ≤ c := by
  obtain ⟨x, hx, hle, -⟩ := hc
  exact Nat.le_trans (h x hx) hle

theorem memList_append {as bs : List Interval} :
    MemList c (as ++ bs) ↔ MemList c as ∨ MemList c bs := by
  simp [MemList, or_and_right, exists_or]

theorem precedes_iff : a.precedes b = true ↔ a.last + 1 < b.first := by
  simp [Interval.precedes]

theorem mergeCompare_eq_lt : a.mergeCompare b = .lt ↔ a.last + 1 < b.first := by
  unfold Interval.mergeCompare
  rw [← precedes_iff]
  repeat' split
  all_goals simp_all

theorem mergeCompare_eq_gt :
    a.mergeCompare b = .gt ↔ b.first ≤ a.last + 1 ∧ b.last + 1 < a.first := by
  unfold Interval.mergeCompare
  rw [← precedes_iff, ← Nat.not_lt, ← precedes_iff]
  split <;> simp_all

namespace CanonicalList

theorem nil : CanonicalList [] := ⟨.nil, by simp⟩

theorem tail (h : CanonicalList (iv :: ivs)) : CanonicalList ivs :=
  ⟨(List.pairwise_cons.mp h.sorted).2, fun x hx => h.proper x (List.mem_cons_of_mem _ hx)⟩

theorem cons (h : CanonicalList ivs) (hp : iv.Proper)
    (hlt : ∀ x ∈ ivs, iv.last + 1 < x.first) : CanonicalList (iv :: ivs) := by
  refine ⟨List.pairwise_cons.mpr ⟨fun x hx => precedes_iff.mpr (hlt x hx), h.sorted⟩, ?_⟩
  intro x hx
  rcases List.mem_cons.mp hx with rfl | hx
  · exact hp
  · exact h.proper x hx

theorem append_iff {as bs : List Interval} : CanonicalList (as ++ bs) ↔
    CanonicalList as ∧ CanonicalList bs ∧ ∀ x ∈ as, ∀ y ∈ bs, x.last + 1 < y.first := by
  constructor
  · rintro ⟨hsorted, hproper⟩
    obtain ⟨has, hbs, hlt⟩ := List.pairwise_append.mp hsorted
    exact ⟨⟨has, fun x hx => hproper x (List.mem_append_left _ hx)⟩,
      ⟨hbs, fun x hx => hproper x (List.mem_append_right _ hx)⟩,
      fun x hx y hy => precedes_iff.mp (hlt x hx y hy)⟩
  · rintro ⟨has, hbs, hlt⟩
    refine ⟨List.pairwise_append.mpr ⟨has.sorted, hbs.sorted,
      fun x hx y hy => precedes_iff.mpr (hlt x hx y hy)⟩, fun x hx => ?_⟩
    exact (List.mem_append.mp hx).elim (has.proper x) (hbs.proper x)

theorem head_lt (h : CanonicalList (iv :: ivs)) : ∀ x ∈ ivs, iv.last + 1 < x.first :=
  fun x hx => precedes_iff.mp ((List.pairwise_cons.mp h.sorted).1 x hx)

theorem first_le (h : CanonicalList (a :: ivs)) :
    ∀ x ∈ a :: ivs, a.first ≤ x.first := by
  intro x hx
  have := (h.proper a List.mem_cons_self).ordered
  rcases List.mem_cons.mp hx with rfl | hx
  · exact Nat.le_refl _
  · have := h.head_lt x hx
    omega

end CanonicalList

/-! ## Members -/

theorem precedes_of_getElem? (h : s.Canonical) {i j : Nat} (hij : i < j)
    (ha : s.intervals[i]? = some a) (hb : s.intervals[j]? = some b) : a.last + 1 < b.first := by
  rw [← Array.getElem?_toList, List.getElem?_eq_some_iff] at ha hb
  obtain ⟨hi, rfl⟩ := ha
  obtain ⟨hj, rfl⟩ := hb
  exact precedes_iff.mp (List.pairwise_iff_getElem.mp h.sorted i j hi hj hij)

theorem proper_of_getElem? (h : s.Canonical) {i : Nat} (ha : s.intervals[i]? = some a) :
    a.Proper := by
  rw [← Array.getElem?_toList] at ha
  exact h.proper a (List.mem_of_getElem? ha)

/-- What comes later in the list is the same interval or lies behind a gap. -/
theorem eq_or_lt_of_getElem? (h : s.Canonical) {i j : Nat} (hij : i ≤ j)
    (ha : s.intervals[i]? = some a) (hb : s.intervals[j]? = some b) :
    a = b ∨ a.first ≤ a.last ∧ a.last + 1 < b.first ∧ b.first ≤ b.last := by
  rcases Nat.lt_or_eq_of_le hij with hij | rfl
  · exact Or.inr ⟨(proper_of_getElem? h ha).ordered, precedes_of_getElem? h hij ha hb,
      (proper_of_getElem? h hb).ordered⟩
  · exact Or.inl (Option.some.inj (ha.symm.trans hb))

/-- **Membership as it is tested is membership.** -/
theorem contains_iff (h : s.Canonical) : s.contains c = true ↔ Mem c s := by
  have hs : Sorted.Switches (fun iv => iv.last < c) s.intervals := by
    intro i j x y hij hx hy
    simp only [decide_eq_true_eq]
    rcases eq_or_lt_of_getElem? h hij hx hy with rfl | hxy <;> omega
  have hpoint := Sorted.partitionPoint_spec hs
  unfold contains Mem MemList
  constructor
  · intro hc
    split at hc
    · next iv hiv =>
      have hlast := hpoint.after _ iv (Nat.le_refl _) hiv
      simp only [decide_eq_true_eq, decide_eq_false_iff_not] at hc hlast
      rw [← Array.getElem?_toList] at hiv
      exact ⟨iv, List.mem_of_getElem? hiv, hc, by omega⟩
    · simp at hc
  · rintro ⟨iv, hiv, hfirst, hlast⟩
    obtain ⟨i, hi⟩ := List.getElem?_of_mem hiv
    rw [Array.getElem?_toList] at hi
    generalize Sorted.partitionPoint (fun iv => iv.last < c) s.intervals = k at hpoint ⊢
    have hk : k ≤ i := by
      rw [← Nat.not_lt]
      intro hlt
      have := hpoint.before i iv hlt hi
      simp only [decide_eq_true_eq] at this
      omega
    have hsize := (Array.getElem?_eq_some_iff.mp hi).1
    have hx := Array.getElem?_eq_getElem (show k < s.intervals.size by omega)
    have hlast' := hpoint.after k _ (Nat.le_refl k) hx
    rcases Nat.lt_or_eq_of_le hk with hlt | rfl
    · have := precedes_of_getElem? h hlt hx hi
      simp only [decide_eq_false_iff_not] at hlast'
      omega
    · rw [hi]
      exact decide_eq_true hfirst

/-! ## Operations -/

theorem canonical_empty : Canonical {} := CanonicalList.nil

@[simp] theorem mem_empty : ¬ Mem c {} := memList_nil

/-- The intervals that an interval merges with stand in the middle: before them are those that end
before it, and behind them those that begin behind it. It takes their place. -/
theorem exists_split_insert (h : s.Canonical) (iv : Interval) :
    ∃ before merging after : List Interval,
      s.intervals.toList = before ++ (merging ++ after) ∧
      (s.insert iv).intervals.toList = before ++ iv.stretch merging :: after ∧
      (∀ x ∈ before, x.last + 1 < iv.first) ∧
      (∀ x ∈ merging, iv.first ≤ x.last + 1 ∧ x.first ≤ iv.last + 1) ∧
      ∀ x ∈ after, iv.last + 1 < x.first := by
  have hlt : Sorted.Switches (fun x => x.mergeCompare iv == .lt) s.intervals := by
    intro i j x y hij hx hy
    simp only [beq_iff_eq, mergeCompare_eq_lt]
    rcases eq_or_lt_of_getElem? h hij hx hy with rfl | hxy <;> omega
  have hle : Sorted.Switches (fun x => x.mergeCompare iv != .gt) s.intervals := by
    intro i j x y hij hx hy
    simp only [bne_iff_ne, ne_eq, mergeCompare_eq_gt]
    rcases eq_or_lt_of_getElem? h hij hx hy with rfl | hxy <;> omega
  have hrange := Sorted.equalRange_spec hlt hle
  unfold insert
  generalize Sorted.equalRange (·.mergeCompare iv) s.intervals = range at hrange ⊢
  obtain ⟨start, stop⟩ := range
  obtain ⟨hstart, hstop, hstart_le, hstop_le⟩ := hrange
  have hmem : ∀ {i j : Nat} {x : Interval}, x ∈ (s.intervals.extract i j).toList →
      ∃ k, i ≤ k ∧ k < j ∧ s.intervals[k]? = some x := by
    intro i j x hx
    obtain ⟨k, hk, rfl⟩ := Array.mem_extract_iff_getElem.mp (Array.mem_toList_iff.mp hx)
    exact ⟨i + k, by omega, by omega, Array.getElem?_eq_getElem (by omega)⟩
  refine ⟨(s.intervals.extract 0 start).toList, (s.intervals.extract start stop).toList,
    (s.intervals.extract stop).toList, ?_, by simp, fun x hx => ?_, fun x hx => ?_,
    fun x hx => ?_⟩
  · have hjoin : s.intervals.extract 0 start ++
        (s.intervals.extract start stop ++ s.intervals.extract stop) = s.intervals := by
      rw [Array.extract_append_extract, Nat.min_eq_left hstart_le, Nat.max_eq_right hstop_le,
        Array.extract_append_extract, Nat.min_eq_left (Nat.zero_le start),
        Nat.max_eq_right (Nat.le_trans hstart_le hstop_le), Array.extract_size]
    rw [← Array.toList_append, ← Array.toList_append, hjoin]
  · obtain ⟨k, -, hk, hget⟩ := hmem hx
    simpa [mergeCompare_eq_lt] using hstart.before k x hk hget
  · obtain ⟨k, hk, hk', hget⟩ := hmem hx
    have hge := hstart.after k x hk hget
    have hle := hstop.before k x hk' hget
    simp only [beq_eq_false_iff_ne, bne_iff_ne, ne_eq, mergeCompare_eq_lt, mergeCompare_eq_gt]
      at hge hle
    omega
  · obtain ⟨k, hk, -, hget⟩ := hmem hx
    have hgt := hstop.after k x hk hget
    simp only [bne_eq_false_iff_eq, mergeCompare_eq_gt] at hgt
    exact hgt.2

/-- A stretched interval begins where one of the intervals begins and ends where one ends. -/
theorem exists_ends_stretch (iv : Interval) (ivs : List Interval) :
    (∃ a ∈ iv :: ivs, (iv.stretch ivs).first = a.first) ∧
      ∃ b ∈ iv :: ivs, (iv.stretch ivs).last = b.last := by
  cases ivs with
  | nil => exact ⟨⟨iv, List.mem_cons_self, rfl⟩, iv, List.mem_cons_self, rfl⟩
  | cons a rest =>
    constructor
    · rcases Nat.le_total a.first iv.first with hle | hle
      · exact ⟨a, List.mem_cons_of_mem _ List.mem_cons_self, Nat.min_eq_left hle⟩
      · exact ⟨iv, List.mem_cons_self, Nat.min_eq_right hle⟩
    · rcases Nat.le_total (rest.getLastD a).last iv.last with hle | hle
      · exact ⟨iv, List.mem_cons_self, Nat.max_eq_right hle⟩
      · exact ⟨_, List.mem_cons_of_mem _ List.getLastD_mem_cons, Nat.max_eq_left hle⟩

/-- The last interval ends last. -/
theorem CanonicalList.last_le_getLastD (h : CanonicalList (a :: ivs)) :
    ∀ x ∈ a :: ivs, x.last ≤ (ivs.getLastD a).last := by
  induction ivs generalizing a with
  | nil => simp
  | cons b ivs ih =>
    have hlast := ih h.tail
    intro x hx
    rw [List.getLastD_cons]
    rcases List.mem_cons.mp hx with rfl | hx
    · have := h.head_lt b List.mem_cons_self
      have := (h.proper b (List.mem_cons_of_mem _ List.mem_cons_self)).ordered
      have := hlast b List.mem_cons_self
      omega
    · exact hlast x hx

/-- A stretched interval covers the intervals that it merges with. -/
theorem CanonicalList.stretch_covers (h : CanonicalList ivs) (iv : Interval) :
    ∀ x ∈ iv :: ivs, (iv.stretch ivs).first ≤ x.first ∧ x.last ≤ (iv.stretch ivs).last := by
  intro x hx
  cases ivs with
  | nil => simp_all [Interval.stretch]
  | cons a rest =>
    simp only [Interval.stretch]
    rcases List.mem_cons.mp hx with rfl | hx
    · omega
    · have := h.first_le x hx
      have := h.last_le_getLastD x hx
      omega

theorem stretch_proper (h : CanonicalList ivs) (hiv : iv.Proper) : (iv.stretch ivs).Proper := by
  obtain ⟨hfirst, hlast⟩ := h.stretch_covers iv iv List.mem_cons_self
  refine ⟨Nat.le_trans hfirst (Nat.le_trans hiv.ordered hlast), ?_⟩
  obtain ⟨-, b, hb, heq⟩ := exists_ends_stretch iv ivs
  rw [heq]
  rcases List.mem_cons.mp hb with rfl | hb
  · exact hiv.bounded
  · exact (h.proper b hb).bounded

/-- Where an interval overlaps or touches each that it merges with, stretching it fills no gap. -/
theorem mem_stretch_iff (h : CanonicalList ivs)
    (htouch : ∀ x ∈ ivs, iv.first ≤ x.last + 1 ∧ x.first ≤ iv.last + 1) :
    (iv.stretch ivs).first ≤ c ∧ c ≤ (iv.stretch ivs).last ↔ MemList c (iv :: ivs) := by
  constructor
  · rintro ⟨hfirst, hlast⟩
    obtain ⟨⟨a, ha, hfirst'⟩, b, hb, hlast'⟩ := exists_ends_stretch iv ivs
    -- What lies before the interval is in the one that begins first, what lies behind it in the
    -- one that ends last.
    rcases Nat.lt_or_ge c iv.first with hlt | hge
    · refine ⟨a, ha, by omega, ?_⟩
      rcases List.mem_cons.mp ha with rfl | ha
      · omega
      · have := (htouch a ha).1
        omega
    · rcases Nat.lt_or_ge iv.last c with hgt | hle
      · refine ⟨b, hb, ?_, by omega⟩
        rcases List.mem_cons.mp hb with rfl | hb
        · omega
        · have := (htouch b hb).2
          omega
      · exact ⟨iv, List.mem_cons_self, hge, hle⟩
  · rintro ⟨x, hx, hfirst, hlast⟩
    obtain ⟨hfirst', hlast'⟩ := h.stretch_covers iv x hx
    exact ⟨Nat.le_trans hfirst' hfirst, Nat.le_trans hlast hlast'⟩

theorem Canonical.insert (h : s.Canonical) (hiv : iv.Proper) : (s.insert iv).Canonical := by
  obtain ⟨before, merging, after, hs, hinsert, hbefore, -, hafter⟩ := exists_split_insert h iv
  rw [Canonical, hs, CanonicalList.append_iff, CanonicalList.append_iff] at h
  obtain ⟨hb, ⟨hm, ha, hma⟩, hbma⟩ := h
  obtain ⟨⟨x, hx, hfirst⟩, y, hy, hlast⟩ := exists_ends_stretch iv merging
  have hstretch_lt : ∀ z ∈ after, (iv.stretch merging).last + 1 < z.first := by
    intro z hz
    rw [hlast]
    rcases List.mem_cons.mp hy with rfl | hy
    · exact hafter z hz
    · exact hma y hy z hz
  rw [Canonical, hinsert, CanonicalList.append_iff]
  refine ⟨hb, ha.cons (stretch_proper hm hiv) hstretch_lt, fun z hz w hw => ?_⟩
  rcases List.mem_cons.mp hw with rfl | hw
  · rw [hfirst]
    rcases List.mem_cons.mp hx with rfl | hx
    · exact hbefore z hz
    · exact hbma z hz x (List.mem_append_left _ hx)
  · exact hbma z hz w (List.mem_append_right _ hw)

theorem mem_insert (h : s.Canonical) :
    Mem c (s.insert iv) ↔ (iv.first ≤ c ∧ c ≤ iv.last) ∨ Mem c s := by
  obtain ⟨before, merging, after, hs, hinsert, -, hmerging, -⟩ := exists_split_insert h iv
  rw [Canonical, hs, CanonicalList.append_iff, CanonicalList.append_iff] at h
  obtain ⟨-, ⟨hm, -, -⟩, -⟩ := h
  rw [Mem, Mem, hs, hinsert, memList_append, memList_cons, mem_stretch_iff hm hmerging,
    memList_cons, memList_append, memList_append, or_assoc]
  exact or_left_comm

theorem Canonical.insertAll (h : s.Canonical) (hivs : ∀ iv ∈ ivs, iv.Proper) :
    (s.insertAll ivs).Canonical := by
  induction ivs generalizing s with
  | nil => exact h
  | cons iv ivs ih =>
    exact ih (h.insert (hivs iv List.mem_cons_self)) fun x hx => hivs x (List.mem_cons_of_mem _ hx)

theorem mem_insertAll (h : s.Canonical) (hivs : ∀ iv ∈ ivs, iv.Proper) :
    Mem c (s.insertAll ivs) ↔ MemList c ivs ∨ Mem c s := by
  induction ivs generalizing s with
  | nil => simp [CharSet.insertAll]
  | cons iv ivs ih =>
    have hiv := hivs iv List.mem_cons_self
    have := ih (h.insert hiv) fun x hx => hivs x (List.mem_cons_of_mem _ hx)
    rw [CharSet.insertAll, List.foldl_cons, ← CharSet.insertAll, this, mem_insert h,
      memList_cons]
    exact or_left_comm.trans or_assoc.symm

theorem Canonical.union (h : s.Canonical) (ht : t.Canonical) : (s.union t).Canonical :=
  h.insertAll ht.proper

theorem mem_union (h : s.Canonical) (ht : t.Canonical) : Mem c (s.union t) ↔ Mem c t ∨ Mem c s :=
  mem_insertAll h ht.proper

/-! ## Complements -/

/-- What the gaps from a place on look like, where the intervals begin there or later. -/
structure IsGaps (start : Nat) (ivs gaps : List Interval) : Prop where
  canonical : CanonicalList gaps
  first_ge : ∀ x ∈ gaps, start ≤ x.first
  mem_iff : ∀ c, start ≤ c → c ≤ maxCodePoint → (MemList c gaps ↔ ¬ MemList c ivs)

theorem isGaps_gapsFrom {start : Nat} (h : CanonicalList ivs)
    (hstart : ∀ x ∈ ivs, start ≤ x.first) : IsGaps start ivs (gapsFrom start ivs) := by
  induction ivs generalizing start with
  | nil =>
    rw [gapsFrom]
    split
    · next hle =>
      refine ⟨CanonicalList.nil.cons ⟨hle, Nat.le_refl _⟩ (by simp), by simp, ?_⟩
      intro c hc hmax
      simp [hc, hmax]
    · exact ⟨CanonicalList.nil, by simp, fun c hc hmax => by omega⟩
  | cons iv ivs ih =>
    have hiv := h.proper iv List.mem_cons_self
    have hle := hstart iv List.mem_cons_self
    have := hiv.ordered
    have := hiv.bounded
    obtain ⟨hcanonical, hfirst, hmem⟩ :=
      ih h.tail fun x hx => Nat.le_of_lt (h.head_lt x hx)
    have hlater : ∀ c, MemList c ivs → iv.last < c := by
      intro c hc
      exact le_of_memList (fun x hx => Nat.le_of_lt (h.head_lt x hx)) hc
    have hrest : ∀ c, c ≤ maxCodePoint →
        (MemList c (gapsFrom (iv.last + 1) ivs) ↔ iv.last < c ∧ ¬ MemList c ivs) := by
      intro c hmax
      by_cases hlast : iv.last < c
      · simp only [hmem c hlast hmax, hlast, true_and]
      · exact iff_of_false (fun h => hlast (le_of_memList hfirst h)) fun h => hlast h.1
    rw [gapsFrom]
    split
    · next hgap =>
      refine ⟨hcanonical.cons ⟨Nat.le_sub_one_of_lt hgap, ?_⟩ ?_, ?_, ?_⟩
      · simp only
        omega
      · intro x hx
        have := hfirst x hx
        simp only
        omega
      · intro x hx
        rcases List.mem_cons.mp hx with rfl | hx
        · exact Nat.le_refl _
        · have := hfirst x hx
          omega
      · -- A code point is in the gap before the interval or in one behind it.
        intro c hc hmax
        rw [memList_cons, memList_cons, not_or, hrest c hmax]
        by_cases hin : MemList c ivs
        · have := hlater c hin
          simp only [hin, not_true_eq_false, and_false, or_false, iff_false]
          omega
        · simp only [hin, not_false_eq_true, and_true]
          omega
    · next hgap =>
      refine ⟨hcanonical, ?_, ?_⟩
      · intro x hx
        have := hfirst x hx
        omega
      · intro c hc hmax
        rw [memList_cons, not_or, hrest c hmax]
        refine and_congr_left fun _ => ?_
        omega

theorem Canonical.compl (h : s.Canonical) : s.compl.Canonical :=
  (isGaps_gapsFrom h fun _ _ => Nat.zero_le _).canonical

theorem mem_compl (h : s.Canonical) (hc : c ≤ maxCodePoint) : Mem c s.compl ↔ ¬ Mem c s :=
  (isGaps_gapsFrom h fun _ _ => Nat.zero_le _).mem_iff c (Nat.zero_le c) hc

/-! ## Characters -/

theorem toNat_le_maxCodePoint (c : Char) : c.toNat ≤ maxCodePoint := by
  have : c.toNat < 0xD800 ∨ 0xDFFF < c.toNat ∧ c.toNat < 0x110000 := c.valid
  unfold maxCodePoint
  omega

theorem proper_between {c d : Char} (h : c ≤ d) : (Interval.between c d).Proper :=
  ⟨h, toNat_le_maxCodePoint d⟩

theorem proper_of_mem_asciiIntervals {cls : CharClass} :
    ∀ iv ∈ cls.asciiIntervals, iv.Proper := by
  have : ∀ cls : CharClass, ∀ iv ∈ cls.asciiIntervals,
      iv.first ≤ iv.last ∧ iv.last ≤ maxCodePoint := by
    intro cls
    cases cls <;> decide
  intro iv hiv
  exact ⟨(this cls iv hiv).1, (this cls iv hiv).2⟩

theorem proper_of_mem_named {name : String} {ivs : List Interval}
    (h : Ascii.named? name = some ivs) : ∀ iv ∈ ivs, iv.Proper := by
  have : ∀ iv ∈ ivs, iv.first ≤ iv.last ∧ iv.last ≤ maxCodePoint := by
    unfold Ascii.named? at h
    split at h
    all_goals first
      | obtain rfl := Option.some.inj h
        decide
      | simp at h
  intro iv hiv
  exact ⟨(this iv hiv).1, (this iv hiv).2⟩

end CharSet

end LinearRegex
