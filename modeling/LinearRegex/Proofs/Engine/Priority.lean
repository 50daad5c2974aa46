import LinearRegex.Proofs.Engine.Search

/-!
# The preferred run wins

What a search finds, in terms of runs: the preferred run from the first boundary that has one,
provided that its prefilter is sound. An anchored search asks no prefilter; it finds the preferred
run from its start, whatever cycles there are that take no character.

Main statements: `search_startPlaces`, and `search_anchored_preferred` for anchored searches;
`finds_none` and `finds_some` say the same of all caches at once.
-/

namespace LinearRegex

namespace Program

variable {p : Program} {width : Nat}

/-! ## Where a search may start -/

theorem startPlaces_anchored {input : Input} (h : input.anchored = true) :
    startPlaces input = [input.start] := if_pos h

theorem mem_onward_of_mem_startPlaces {input : Input} {q : Cursor} (h : q ∈ startPlaces input) :
    q ∈ input.start.onward := by
  unfold startPlaces at h
  split at h
  · rw [List.mem_singleton.mp h]
    exact input.start.mem_onward_self
  · exact h

theorem startPlaces_pairwise (input : Input) :
    (startPlaces input).Pairwise (·.offset < ·.offset) := by
  unfold startPlaces
  split
  · exact List.pairwise_singleton _ _
  · exact input.start.onward_pairwise

/-! ## The first place with a match -/

/-- What comes of threads started at several places: the first place from which a run accepts
decides, by its preferred run. -/
theorem Outcome.first_start {starts : List Cursor} {empty : Slots} {outcome : Option Slots}
    (h : p.Outcome List.Nodup (starts.map fun q => .follow ⟨0, q⟩ empty) outcome) :
    (outcome = none ∧ ∀ q ∈ starts, ∀ r, ¬ p.Accepts ⟨0, q⟩ r) ∨
      ∃ before q behind, starts = before ++ q :: behind ∧
        (∀ x ∈ before, ∀ r, ¬ p.Accepts ⟨0, x⟩ r) ∧
        ∃ r, p.Preferred List.Nodup ⟨0, q⟩ r ∧ outcome = some (p.recorded r empty) := by
  induction starts with
  | nil =>
    cases h
    exact Or.inl ⟨rfl, by simp⟩
  | cons q starts ih =>
    rw [List.map_cons] at h
    cases h with
    | run h => exact Or.inr ⟨[], q, starts, rfl, by simp, _, h, rfl⟩
    | skip hskip h =>
      -- A run with detours could be shortened to one without.
      have hq : ∀ r, ¬ p.Accepts ⟨0, q⟩ r := by
        intro r hr
        obtain ⟨s, hs, hn, -⟩ := hr.exists_nodup
        exact hskip s hs hn
      rcases ih h with ⟨ho, hnone⟩ | ⟨before, x, behind, heq, hbefore, r, hr, ho⟩
      · refine Or.inl ⟨ho, ?_⟩
        intro x hx
        rcases List.mem_cons.mp hx with rfl | hx
        · exact hq
        · exact hnone x hx
      · refine Or.inr ⟨q :: before, x, behind, by rw [heq, List.cons_append], fun y hy => ?_, r,
          hr, ho⟩
        rcases List.mem_cons.mp hy with rfl | hy
        · exact hq
        · exact hbefore y hy

/-- What a search finds that may start at several boundaries. -/
theorem search_startPlaces (p : Program) (input : Input) (hbudget : input.budget = none)
    (hsound : input.anchored = false → p.PrefilterSound input.hay)
    (hstart : input.start ∈ input.hay.cursors) (width : Nat) (cache : Cache) :
    ∃ found cache', p.search input width cache = (.ok found, cache') ∧
      ((found = false ∧ ∀ q ∈ startPlaces input, ∀ r, ¬ p.Accepts ⟨0, q⟩ r) ∨
        (found = true ∧ ∃ q ∈ startPlaces input,
          (∀ x ∈ startPlaces input, x.offset < q.offset → ∀ r, ¬ p.Accepts ⟨0, x⟩ r) ∧
          ∃ r, p.Preferred List.Nodup ⟨0, q⟩ r ∧
            cache'.slots = p.recorded r (.replicate width none))) := by
  obtain ⟨found, cache', heq, ho⟩ := outcome_search p input width cache hbudget hsound hstart
  refine ⟨found, cache', heq, ?_⟩
  rcases ho.first_start with ⟨hout, hnone⟩ | ⟨before, q, behind, hsplit, hbefore, r, hr, hout⟩
  · refine Or.inl ⟨?_, hnone⟩
    cases found with
    | false => rfl
    | true => simp at hout
  · refine Or.inr ?_
    cases found with
    | false => simp at hout
    | true =>
      refine ⟨rfl, q, by rw [hsplit]; simp, fun x hx hlt => ?_, r, hr, by simpa using hout⟩
      -- Offsets ascend, so a boundary with a smaller offset comes before.
      have hsorted := startPlaces_pairwise input
      rw [hsplit, List.pairwise_append, List.pairwise_cons] at hsorted
      rw [hsplit, List.mem_append, List.mem_cons] at hx
      rcases hx with hx | rfl | hx
      · exact hbefore x hx
      · exact absurd hlt (Nat.lt_irrefl _)
      · exact absurd (hsorted.2.1.1 x hx) (Nat.not_lt.mpr (Nat.le_of_lt hlt))

/-- **An anchored search finds the preferred run.** There is a match just when some run accepts, and
then the slots are those recorded by the first run in the order of preference among those that are
never twice in one configuration. -/
theorem search_anchored_preferred (p : Program) (hay : Haystack) (start : Cursor)
    (hstart : start ∈ hay.cursors) (width : Nat) (cache : Cache) :
    ∃ found cache', p.search { hay, start, anchored := true } width cache = (.ok found, cache') ∧
      (found = true ↔ ∃ r, p.Accepts ⟨0, start⟩ r) ∧
      (found = true → ∃ r, p.Preferred List.Nodup ⟨0, start⟩ r ∧
        cache'.slots = p.recorded r (.replicate width none)) := by
  obtain ⟨found, cache', heq, h⟩ := p.search_startPlaces { hay, start, anchored := true } rfl
    (by simp) hstart width cache
  refine ⟨found, cache', heq, ?_⟩
  rw [startPlaces_anchored rfl] at h
  simp only [List.mem_singleton, forall_eq, exists_eq_left] at h
  rcases h with ⟨rfl, hnone⟩ | ⟨rfl, -, r, hr, hslots⟩
  · exact ⟨⟨by simp, fun ⟨r, hr⟩ => absurd hr (hnone r)⟩, by simp⟩
  · exact ⟨⟨fun _ => ⟨r, hr.accepts⟩, fun _ => rfl⟩, fun _ => ⟨r, hr, hslots⟩⟩

/-- A program with a cycle that takes no character, as a star within a star has it. -/
theorem search_anchored_preferred_cycle :
    ∃ p : Program, p.instrs = #[.save 0, .split 2 3, .jump 1, .save 1, .accept] ∧
      ∃ cache', p.search
          { hay := .ofString "ab", start := (Haystack.ofString "ab").start, anchored := true } 2
          {} = (.ok true, cache') ∧
        ∃ r, p.Preferred List.Nodup ⟨0, (Haystack.ofString "ab").start⟩ r ∧
          cache'.slots = p.recorded r #[none, none] := by
  let p : Program :=
    { instrs := #[.save 0, .split 2 3, .jump 1, .save 1, .accept], brackets := #[]
      prefilter := .anywhere, groupNames := #[none], flags := {} }
  let cur := (Haystack.ofString "ab").start
  obtain ⟨found, cache', heq, hiff, hslots⟩ :=
    search_anchored_preferred p (.ofString "ab") cur (Haystack.start_mem_cursors _) 2 {}
  have hexit : p.Accepts ⟨4, cur⟩ [⟨4, cur⟩] := .accept rfl
  have hclose : p.Accepts ⟨3, cur⟩ [⟨3, cur⟩, ⟨4, cur⟩] := .step (List.mem_singleton_self _) hexit
  have hleave : p.Accepts ⟨1, cur⟩ [⟨1, cur⟩, ⟨3, cur⟩, ⟨4, cur⟩] :=
    .step (List.mem_cons_of_mem _ (List.mem_singleton_self _)) hclose
  have hfound := hiff.mpr ⟨_, .step (List.mem_singleton_self _) hleave⟩
  exact ⟨p, rfl, cache', by rw [heq, hfound], hslots hfound⟩

/-! ## Whatever cache is used -/

/-- What a search finds with every cache: the slots of a match, or nothing if there is none. -/
def Finds (p : Program) (input : Input) (width : Nat) (found : Option Slots) : Prop :=
  ∀ cache, ∃ cache', p.search input width cache = (.ok found.isSome, cache') ∧
    ∀ slots, found = some slots → cache'.slots = slots

section

variable {input : Input} (hbudget : input.budget = none)
  (hsound : input.anchored = false → p.PrefilterSound input.hay)
  (hstart : input.start ∈ input.hay.cursors)
include hbudget hsound hstart

theorem finds_none (h : ∀ q ∈ startPlaces input, ∀ r, ¬ p.Accepts ⟨0, q⟩ r) :
    p.Finds input width none := by
  intro cache
  obtain ⟨found, cache', heq, ⟨rfl, -⟩ | ⟨-, q, hq, -, r, hr, -⟩⟩ :=
    p.search_startPlaces input hbudget hsound hstart width cache
  · exact ⟨cache', heq, by simp⟩
  · exact absurd hr.accepts (h q hq r)

theorem finds_some {q : Cursor} (hq : q ∈ startPlaces input)
    (hfirst : ∀ x ∈ startPlaces input, x.offset < q.offset → ∀ r, ¬ p.Accepts ⟨0, x⟩ r)
    {r : List Config} (h : p.Preferred List.Nodup ⟨0, q⟩ r) :
    p.Finds input width (some (p.recorded r (.replicate width none))) := by
  intro cache
  obtain ⟨found, cache', heq, ⟨-, hnone⟩ | ⟨rfl, x, hx, hfirst', s, hs, hslots⟩⟩ :=
    p.search_startPlaces input hbudget hsound hstart width cache
  · exact absurd h.accepts (hnone q hq r)
  · -- Both places are the first, so they are the same.
    have hle : ¬ x.offset < q.offset := fun hlt => hfirst x hx hlt s hs.accepts
    have hle' : ¬ q.offset < x.offset := fun hlt => hfirst' q hq hlt r h.accepts
    obtain rfl : x = q := Cursor.eq_of_offset_eq (mem_onward_of_mem_startPlaces hx)
      (mem_onward_of_mem_startPlaces hq) (by omega)
    refine ⟨cache', heq, ?_⟩
    intro slots hslots'
    rw [hslots, hs.unique h]
    exact Option.some.inj hslots'

end

end Program

end LinearRegex
