import LinearRegex.Proofs.Engine.Priority

/-!
# How a search ends

A search that ends before its deadline ends as it would without one, and a search that finds nothing
leaves all slots empty.

Main statements: `search_of_budget` and `slots_of_search_not_found`.
-/

namespace LinearRegex

namespace Program

variable {p : Program} {input : Input} {width : Nat} {matched : Bool} {cur : Cursor}
variable {budget : Option Nat} {cache cache' : Cache} {found : Bool}

/-! ## Rounds -/

/-- **A deadline that is not met makes no difference.** -/
theorem rounds_of_budget {limit : Option Nat}
    (h : p.rounds { input with budget := limit } width budget matched cur cache =
      (.ok found, cache')) :
    p.rounds { input with budget := none } width none matched cur cache = (.ok found, cache') := by
  have hnone : (none : Option Nat) ≠ some 0 := by simp
  induction budget, matched, cur, cache using
    rounds.induct p { input with budget := limit } width with
  | case1 =>
    rw [rounds, if_pos rfl] at h
    simp at h
  | case2 _ _ _ _ _ _ _ hb hp =>
    rw [rounds_stop hb hp] at h
    have hp : p.roundPlace? { input with budget := none } _ _ _ = _ := hp
    exact (rounds_stop hnone hp).trans h
  | case3 _ _ _ _ _ _ _ hb _ hp _ _ hstart _ _ _ hw hstep =>
    rw [rounds_untracked hb hp hstart hstep rfl hw] at h
    have hp : p.roundPlace? { input with budget := none } _ _ _ = _ := hp
    have hstart : p.startThread { input with budget := none } _ _ _ _ = _ := hstart
    exact (rounds_untracked hnone hp hstart hstep rfl hw).trans h
  | case4 _ _ _ _ _ _ _ hb _ hp _ _ hstart _ _ _ hstep hr hgo =>
    rw [rounds_textEnd hb hp hstart hstep hr hgo] at h
    have hp : p.roundPlace? { input with budget := none } _ _ _ = _ := hp
    have hstart : p.startThread { input with budget := none } _ _ _ _ = _ := hstart
    exact (rounds_textEnd hnone hp hstart hstep hr hgo).trans h
  | case5 _ _ _ _ _ _ _ hb _ hp _ _ hstart complete _ _ hstep _ _ _ _ hr hgo ih =>
    rw [rounds_next hb hp hstart hstep hr hgo] at h
    have hp : p.roundPlace? { input with budget := none } _ _ _ = _ := hp
    have hstart : p.startThread { input with budget := none } _ _ _ _ = _ := hstart
    refine (rounds_next hnone hp hstart hstep hr hgo).trans ?_
    cases complete <;> exact ih h

/-- Rounds that find nothing leave the slots as they were, and no match was known before. -/
theorem slots_of_rounds_not_found
    (h : p.rounds input width budget matched cur cache = (.ok false, cache')) :
    matched = false ∧ cache'.slots = cache.slots := by
  induction budget, matched, cur, cache using rounds.induct p input width with
  | case1 =>
    rw [rounds, if_pos rfl] at h
    simp at h
  | case2 _ _ _ _ _ _ _ hb hp =>
    rw [rounds_stop hb hp] at h
    obtain ⟨hm, rfl⟩ := Prod.mk.inj h
    exact ⟨Except.ok.inj hm, rfl⟩
  | case3 _ _ _ _ _ _ _ hb _ hp _ _ hstart _ _ _ hw hstep =>
    rw [rounds_untracked hb hp hstart hstep rfl hw] at h
    simp at h
  | case4 _ _ _ _ _ _ _ hb _ hp _ _ hstart complete _ _ hstep hr hgo =>
    rw [rounds_textEnd hb hp hstart hstep hr hgo] at h
    obtain ⟨hm, rfl⟩ := Prod.mk.inj h
    obtain ⟨rfl, hc⟩ := Bool.or_eq_false_iff.mp (Except.ok.inj hm)
    rw [Option.isSome_eq_false_iff, Option.isNone_iff_eq_none] at hc
    exact ⟨rfl, by rw [hc]; rfl⟩
  | case5 _ _ _ _ _ _ _ hb _ hp _ _ hstart complete _ _ hstep _ _ _ _ hr hgo ih =>
    rw [rounds_next hb hp hstart hstep hr hgo] at h
    cases complete with
    | none =>
      obtain ⟨hm, hs⟩ := ih h
      exact ⟨(Bool.or_eq_false_iff.mp hm).1, hs⟩
    | some ip =>
      obtain ⟨hm, -⟩ := ih h
      exact absurd (Bool.or_eq_false_iff.mp hm).2 (by simp)

/-! ## Searches -/

theorem search_of_budget (input : Input) {limit : Option Nat}
    (h : p.search { input with budget := limit } width cache = (.ok found, cache')) :
    p.search { input with budget := none } width cache = (.ok found, cache') :=
  rounds_of_budget h

/-- A search that finds nothing leaves no slot behind. -/
theorem slots_of_search_not_found (h : p.search input width cache = (.ok false, cache')) :
    cache'.slots = .replicate width none :=
  (slots_of_rounds_not_found h).2

/-- What every cache shows after a search that finds something, or nothing. -/
theorem Finds.exists_search {found : Option Slots} (h : p.Finds input width found)
    (cache : Cache) : ∃ cache', p.search input width cache = (.ok found.isSome, cache') ∧
      cache'.slots = found.getD (.replicate width none) := by
  obtain ⟨cache', heq, hslots⟩ := h cache
  refine ⟨cache', heq, ?_⟩
  cases found with
  | none => exact slots_of_search_not_found heq
  | some slots => exact hslots slots rfl

/-- A search with a deadline finds the same, if it ends before. -/
theorem Finds.of_budget {found : Option Slots} {ended : Bool} {limit : Option Nat}
    (h : p.Finds input width found) (hbudget : input.budget = none)
    (hs : p.search { input with budget := limit } width cache = (.ok ended, cache')) :
    ended = found.isSome ∧ cache'.slots = found.getD (.replicate width none) := by
  obtain ⟨cache'', heq, hslots⟩ := h.exists_search cache
  have hs := search_of_budget input hs
  rw [← hbudget] at hs
  obtain ⟨hended, rfl⟩ := Prod.mk.inj (hs.symm.trans heq)
  exact ⟨Except.ok.inj hended, hslots⟩

end Program

end LinearRegex
