import LinearRegex.Proofs.Engine.Priority
import LinearRegex.Proofs.Prefilter.Sound
import LinearRegex.Proofs.Program.Preference

/-!
# Searches for compiled patterns

What a search finds that runs the program of a pattern. The program is as the pattern is laid out
and its prefilter leaves out no match, so what is known of runs can be said of the pattern.

Main statements: `search_backtracks`, which tells the slots of the match as long as the loops
without a bound take characters; `search_matches`, which tells of every pattern when there is a
match and what its bounds are; and `search_first_anchored`, which reduces searches to anchored ones.
-/

namespace LinearRegex

namespace Program

variable {p : Program} {hay : Haystack} {start : Cursor}

/-- What a pattern is compiled to, with all that the proofs on searches rest on. -/
theorem exists_compiled {source : String} {flags : Flags} {limit : Nat} {pattern : Pattern}
    (hparse : Pattern.parse source flags = .ok pattern) (hcompile : compile limit pattern = .ok p) :
    ∃ exit, p.Compiled pattern exit ∧ pattern.node.WellFormed := by
  obtain ⟨exit, hc, -⟩ := compile_layout hcompile
  exact ⟨exit, hc, (Pattern.parse_written hparse).1.wellFormed⟩

/-- **A search finds what the first anchored search finds.** Either there is no match, and no
anchored search from a boundary behind the start finds one; or the match is that of the anchored
search at the first boundary where there is one, with the same slots, however many are tracked. -/
theorem search_first_anchored {source : String} {flags : Flags} {limit : Nat} {pattern : Pattern}
    (hparse : Pattern.parse source flags = .ok pattern) (hcompile : compile limit pattern = .ok p)
    (hstart : start ∈ hay.cursors) (width : Nat) :
    (p.Finds { hay, start } width none ∧
        ∀ q ∈ start.onward, p.Finds { hay, start := q, anchored := true } width none) ∨
      ∃ q ∈ start.onward, ∃ slots, p.Finds { hay, start } width (some slots) ∧
        p.Finds { hay, start := q, anchored := true } width (some slots) ∧
        ∀ x ∈ start.onward, x.offset < q.offset →
          p.Finds { hay, start := x, anchored := true } width none := by
  obtain ⟨exit, hc, hw⟩ := exists_compiled hparse hcompile
  have hsound : p.PrefilterSound hay := hc.prefilterSound hw
  have hmem : ∀ q ∈ start.onward, q ∈ hay.cursors := fun q hq => Cursor.mem_onward_trans hstart hq
  -- An anchored search has one place to start and asks no prefilter.
  have anchored_none : ∀ q ∈ start.onward, (∀ r, ¬ p.Accepts ⟨0, q⟩ r) →
      p.Finds { hay, start := q, anchored := true } width none := by
    intro q hq hnone
    refine finds_none rfl (by simp) (hmem q hq) ?_
    rw [startPlaces_anchored rfl]
    simpa using hnone
  obtain ⟨-, -, -, ⟨-, hnone⟩ | ⟨-, q, hq, hfirst, r, hr, -⟩⟩ :=
    p.search_startPlaces { hay, start } rfl (fun _ => hsound) hstart width {}
  · refine Or.inl ⟨finds_none rfl (fun _ => hsound) hstart hnone, ?_⟩
    intro q hq
    exact anchored_none q hq (hnone q hq)
  · refine Or.inr ⟨q, hq, _, finds_some rfl (fun _ => hsound) hstart hq hfirst hr,
      finds_some rfl (by simp) (hmem q hq) ?_ ?_ hr, fun x hx hlt => ?_⟩
    · rw [startPlaces_anchored rfl]
      exact List.mem_singleton_self _
    · rw [startPlaces_anchored rfl]
      intro x hx hlt
      rw [List.mem_singleton.mp hx] at hlt
      exact absurd hlt (Nat.lt_irrefl _)
    · exact anchored_none x hx (hfirst x hx hlt)

theorem search_first_anchored_untracked : ∃ pattern p,
    Pattern.parse "a*b" {} = .ok pattern ∧ compile 100 pattern = .ok p ∧
    ((p.Finds { hay := .ofString "cab", start := (Haystack.ofString "cab").start } 0 none ∧
        ∀ q ∈ (Haystack.ofString "cab").start.onward,
          p.Finds { hay := .ofString "cab", start := q, anchored := true } 0 none) ∨
      ∃ q ∈ (Haystack.ofString "cab").start.onward, ∃ slots,
        p.Finds { hay := .ofString "cab", start := (Haystack.ofString "cab").start } 0
          (some slots) ∧
        p.Finds { hay := .ofString "cab", start := q, anchored := true } 0 (some slots) ∧
        ∀ x ∈ (Haystack.ofString "cab").start.onward, x.offset < q.offset →
          p.Finds { hay := .ofString "cab", start := x, anchored := true } 0 none) := by
  obtain ⟨pattern, hparse, p, hcompile⟩ : ∃ pattern, Pattern.parse "a*b" {} = .ok pattern ∧
      ∃ p, compile 100 pattern = .ok p := by
    with_unfolding_all exact ⟨_, rfl, _, rfl⟩
  exact ⟨pattern, p, hparse, hcompile,
    search_first_anchored hparse hcompile (Haystack.start_mem_cursors _) 0⟩

/-- **A search finds a match just when the pattern has one.** There is a match if the pattern
matches from some boundary behind the start, or from the start itself if the search is anchored;
then slot 0 is the first such boundary, and the pattern matches from there to slot 1. -/
theorem search_matches {source : String} {flags : Flags} {limit : Nat} {pattern : Pattern}
    (hparse : Pattern.parse source flags = .ok pattern) (hcompile : compile limit pattern = .ok p)
    (hstart : start ∈ hay.cursors) (anchored : Bool) (width : Nat) (cache : Cache) :
    ∃ found cache', p.search { hay, start, anchored } width cache = (.ok found, cache') ∧
      (found = true ↔ ∃ i ∈ startPlaces { hay, start, anchored }, ∃ j, pattern.node.Matches i j) ∧
      (found = true → 2 ≤ width →
        ∃ i ∈ startPlaces { hay, start, anchored }, ∃ j, pattern.node.Matches i j ∧
          cache'.slots[0]? = some (some i.offset) ∧ cache'.slots[1]? = some (some j.offset) ∧
          ∀ x ∈ startPlaces { hay, start, anchored }, ∀ y, pattern.node.Matches x y →
            i.offset ≤ x.offset) := by
  obtain ⟨exit, hc, hw⟩ := exists_compiled hparse hcompile
  obtain ⟨found, cache', heq, h⟩ := p.search_startPlaces { hay, start, anchored } rfl
    (fun _ => hc.prefilterSound hw) hstart width cache
  refine ⟨found, cache', heq, ?_⟩
  rcases h with ⟨rfl, hnone⟩ | ⟨rfl, i, hi, hfirst, r, hr, hslots⟩
  · refine ⟨⟨by simp, ?_⟩, by simp⟩
    rintro ⟨i, hi, hj⟩
    obtain ⟨r, hr⟩ := (hc.exists_accepts_iff hw).mpr hj
    exact absurd hr (hnone i hi r)
  · obtain ⟨j, hj, hrecorded⟩ := hc.matches_of_accepts hw hr.accepts
    refine ⟨⟨fun _ => ⟨i, hi, j, hj⟩, fun _ => rfl⟩, fun _ hwidth => ⟨i, hi, j, hj, ?_⟩⟩
    obtain ⟨h₀, h₁⟩ := hrecorded (.replicate width none) (by rwa [Array.size_replicate])
    rw [hslots]
    refine ⟨h₀, h₁, fun x hx y hy => Nat.le_of_not_lt ?_⟩
    intro hlt
    obtain ⟨s, hs⟩ := (hc.exists_accepts_iff hw).mpr ⟨y, hy⟩
    exact hfirst x hx hlt s hs

theorem search_matches_nested_star : ∃ pattern p,
    Pattern.parse "(a*)*b" {} = .ok pattern ∧ compile 100 pattern = .ok p ∧
    ∃ found cache', p.search
        { hay := .ofString "cab", start := (Haystack.ofString "cab").start } 2 {} =
        (.ok found, cache') ∧
      (found = true ↔
        ∃ i ∈ (Haystack.ofString "cab").start.onward, ∃ j, pattern.node.Matches i j) ∧
      (found = true → ∃ i ∈ (Haystack.ofString "cab").start.onward, ∃ j,
        pattern.node.Matches i j ∧ cache'.slots[0]? = some (some i.offset) ∧
        cache'.slots[1]? = some (some j.offset) ∧
        ∀ x ∈ (Haystack.ofString "cab").start.onward, ∀ y, pattern.node.Matches x y →
          i.offset ≤ x.offset) := by
  obtain ⟨pattern, hparse, p, hcompile⟩ : ∃ pattern, Pattern.parse "(a*)*b" {} = .ok pattern ∧
      ∃ p, compile 100 pattern = .ok p := by
    with_unfolding_all exact ⟨_, rfl, _, rfl⟩
  obtain ⟨found, cache', heq, hiff, hslots⟩ :=
    search_matches hparse hcompile (Haystack.start_mem_cursors (.ofString "cab")) false 2 {}
  exact ⟨pattern, p, hparse, hcompile, found, cache', heq, hiff,
    fun hfound => hslots hfound (Nat.le_refl 2)⟩

/-- **A search finds what backtracking finds first.** If the bodies of all loops without a bound
take characters, then the match is that of the backtracking matcher at the first boundary where it
has one, with the same slots; and there is no match if it has none anywhere. -/
theorem search_backtracks {source : String} {flags : Flags} {limit : Nat} {pattern : Pattern}
    (hparse : Pattern.parse source flags = .ok pattern) (hcompile : compile limit pattern = .ok p)
    (hloops : pattern.node.loopsAdvance = true) (hstart : start ∈ hay.cursors) (width : Nat) :
    (p.Finds { hay, start } width none ∧
        ∀ q ∈ start.onward, pattern.backtrack width q = none) ∨
      ∃ q ∈ start.onward, ∃ slots, p.Finds { hay, start } width (some slots) ∧
        pattern.backtrack width q = some slots ∧
        ∀ x ∈ start.onward, x.offset < q.offset → pattern.backtrack width x = none := by
  obtain ⟨exit, hc, hw⟩ := exists_compiled hparse hcompile
  have hsound : p.PrefilterSound hay := hc.prefilterSound hw
  have backtrack_none : ∀ x, (∀ r, ¬ p.Accepts ⟨0, x⟩ r) → pattern.backtrack width x = none := by
    intro x hnone
    rcases hc.backtrack_cases hw hloops width x with ⟨h, -⟩ | ⟨r, hr, -⟩
    · exact h
    · exact absurd hr.accepts (hnone r)
  obtain ⟨-, -, -, ⟨-, hnone⟩ | ⟨-, q, hq, hfirst, r, hr, -⟩⟩ :=
    p.search_startPlaces { hay, start } rfl (fun _ => hsound) hstart width {}
  · exact Or.inl ⟨finds_none rfl (fun _ => hsound) hstart hnone,
      fun q hq => backtrack_none q (hnone q hq)⟩
  · refine Or.inr ⟨q, hq, _, finds_some rfl (fun _ => hsound) hstart hq hfirst hr, ?_,
      fun x hx hlt => backtrack_none x (hfirst x hx hlt)⟩
    -- Only one run from the boundary is preferred, so both record the same.
    rcases hc.backtrack_cases hw hloops width q with ⟨-, hno⟩ | ⟨s, hs, h⟩
    · exact absurd hr.accepts (hno r)
    · rw [h, hs.unique hr]

/-- A lazy loop around branches, where the first branch does not lead to a match. -/
theorem search_backtracks_lazy : ∃ pattern p, Pattern.parse "(a|ab)+?c" {} = .ok pattern ∧
    compile 100 pattern = .ok p ∧ pattern.node.loopsAdvance = true ∧
    p.Finds { hay := .ofString "abc", start := (Haystack.ofString "abc").start } 4
      (some #[some 0, some 3, some 0, some 2]) := by
  obtain ⟨pattern, hparse, hloops, hback, p, hcompile⟩ : ∃ pattern,
      Pattern.parse "(a|ab)+?c" {} = .ok pattern ∧ pattern.node.loopsAdvance = true ∧
      pattern.backtrack 4 (Haystack.ofString "abc").start =
        some #[some 0, some 3, some 0, some 2] ∧
      ∃ p, compile 100 pattern = .ok p := by
    with_unfolding_all exact ⟨_, rfl, rfl, rfl, _, rfl⟩
  refine ⟨pattern, p, hparse, hcompile, hloops, ?_⟩
  have hself := (Haystack.ofString "abc").start.mem_onward_self
  rcases search_backtracks hparse hcompile hloops (Haystack.start_mem_cursors _) 4 with
    ⟨-, hnone⟩ | ⟨q, hq, slots, hfinds, hslots, hfirst⟩
  · rw [hnone _ hself] at hback
    simp at hback
  · rcases Nat.lt_or_eq_of_le (Cursor.offset_le_of_mem_onward hq) with hlt | heq
    · rw [hfirst _ hself hlt] at hback
      simp at hback
    · rw [← Cursor.eq_of_offset_eq hself hq heq, hback] at hslots
      rwa [Option.some.inj hslots]

end Program

end LinearRegex
