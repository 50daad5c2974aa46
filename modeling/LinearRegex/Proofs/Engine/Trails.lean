import LinearRegex.Proofs.Engine.Compiled
import LinearRegex.Proofs.Pattern.EmptyIterations
import LinearRegex.Proofs.Program.Trails

/-!
# Searches where loops can match the empty text

What a search finds if the bodies of loops need not take characters. A thread that comes to an
instruction where another one has been is given up, and this is not the same as rejecting iterations
which take no character: a choice within the body may have been made by an earlier iteration.

Main statements: `search_trails`, which tells the slots of the match for every pattern, and
`exists_advancingBacktrack_ne` for the difference.
-/

namespace LinearRegex

namespace Program

variable {p : Program} {pattern : Pattern} {hay : Haystack} {start : Cursor} {exit width : Nat}
variable {first : Cursor → Option Slots} {slots : Slots}

/-- A search finds what there is at the first boundary where there is something, and nothing if
there is nothing anywhere: `first` tells for each boundary the slots of the match that begins
there. -/
def FindsFirst (p : Program) (hay : Haystack) (start : Cursor) (width : Nat)
    (first : Cursor → Option Slots) : Prop :=
  (p.Finds { hay, start } width none ∧ ∀ q ∈ start.onward, first q = none) ∨
    ∃ q ∈ start.onward, ∃ slots, p.Finds { hay, start } width (some slots) ∧
      first q = some slots ∧ ∀ x ∈ start.onward, x.offset < q.offset → first x = none

/-- What is found is what the first boundary gives at which there is something. -/
theorem FindsFirst.finds_findSome? (h : p.FindsFirst hay start width first) :
    p.Finds { hay, start } width (start.onward.findSome? first) := by
  rcases h with ⟨hfinds, hnone⟩ | ⟨q, hq, slots, hfinds, hslots, hfirst⟩
  · rwa [List.findSome?_eq_none_iff.mpr hnone]
  · obtain ⟨before, honward, hlt⟩ := Cursor.onward_eq_append hq
    have hbefore : before.findSome? first = none := by
      refine List.findSome?_eq_none_iff.mpr fun x hx => hfirst x ?_ (hlt x hx)
      rw [honward]
      exact List.mem_append_left _ hx
    obtain ⟨behind, hbehind⟩ := q.exists_onward_cons
    rwa [honward, List.findSome?_append, hbefore, Option.none_or, hbehind, List.findSome?_cons,
      hslots]

/-- What begins right at the start is found. -/
theorem FindsFirst.finds (h : p.FindsFirst hay start width first) (hs : first start = some slots) :
    p.Finds { hay, start } width (some slots) := by
  obtain ⟨behind, hbehind⟩ := start.exists_onward_cons
  have hfinds := h.finds_findSome?
  rwa [hbehind, List.findSome?_cons, hs] at hfinds

namespace Compiled

/-- A search finds what the preferred runs record, by whatever means that is told. -/
theorem findsFirst (hc : p.Compiled pattern exit) (hw : pattern.node.WellFormed)
    (hstart : start ∈ hay.cursors)
    (hcases : ∀ x, (first x = none ∧ ∀ r, ¬ p.Accepts ⟨0, x⟩ r) ∨
      ∃ r, p.Preferred List.Nodup ⟨0, x⟩ r ∧
        first x = some (p.recorded r (.replicate width none))) :
    p.FindsFirst hay start width first := by
  have hsound : p.PrefilterSound hay := hc.prefilterSound hw
  have first_none : ∀ x, (∀ r, ¬ p.Accepts ⟨0, x⟩ r) → first x = none := by
    intro x hnone
    rcases hcases x with ⟨h, -⟩ | ⟨r, hr, -⟩
    · exact h
    · exact absurd hr.accepts (hnone r)
  obtain ⟨-, -, -, ⟨-, hnone⟩ | ⟨-, q, hq, hfirst, r, hr, -⟩⟩ :=
    p.search_startPlaces { hay, start } rfl (fun _ => hsound) hstart width {}
  · refine Or.inl ⟨finds_none rfl (fun _ => hsound) hstart hnone, ?_⟩
    intro q hq
    exact first_none q (hnone q hq)
  · refine Or.inr ⟨q, hq, _, finds_some rfl (fun _ => hsound) hstart hq hfirst hr, ?_, ?_⟩
    · -- Only one run from the boundary is preferred, so both record the same.
      rcases hcases q with ⟨-, hno⟩ | ⟨s, hs, h⟩
      · exact absurd hr.accepts (hno r)
      · rw [h, hs.unique hr]
    · intro x hx hlt
      exact first_none x (hfirst x hx hlt)

/-- **Where bodies take characters, no choice is come to twice.** -/
theorem firstTrail_eq_backtrack (hc : p.Compiled pattern exit) (hw : pattern.node.WellFormed)
    (hl : pattern.node.loopsAdvance = true) :
    pattern.firstTrail = pattern.backtrack := by
  funext width cur
  rcases hc.firstTrail_cases hw width cur with ⟨htrail, hno⟩ | ⟨r, hr, htrail⟩
  · rcases hc.backtrack_cases hw hl width cur with ⟨hback, -⟩ | ⟨s, hs, -⟩
    · rw [htrail, hback]
    · exact absurd hs.accepts (hno s)
  · rcases hc.backtrack_cases hw hl width cur with ⟨-, hno⟩ | ⟨s, hs, hback⟩
    · exact absurd hr.accepts (hno r)
    · rw [htrail, hback, hr.unique hs]

end Compiled

/-- **A search finds the first trail.** For every pattern, also where bodies of loops can match the
empty text: the match is that of the backtracking matcher that makes no choice twice in one place,
at the first boundary where it has one, with the same slots; and there is no match if it has none
anywhere. -/
theorem search_trails {source : String} {flags : Flags} {limit : Nat}
    (hparse : Pattern.parse source flags = .ok pattern) (hcompile : compile limit pattern = .ok p)
    (hstart : start ∈ hay.cursors) (width : Nat) :
    p.FindsFirst hay start width (pattern.firstTrail width) := by
  obtain ⟨exit, hc, hw⟩ := exists_compiled hparse hcompile
  exact hc.findsFirst hw hstart (hc.firstTrail_cases hw width)

/-- A star over branches of which the second matches the empty text. -/
theorem search_trails_nullable_branch : ∃ pattern p,
    Pattern.parse "(?:(a)|b*)*c" {} = .ok pattern ∧ compile 100 pattern = .ok p ∧
    pattern.node.loopsAdvance = false ∧
    p.Finds { hay := .ofString "abac", start := (Haystack.ofString "abac").start } 4
      (some #[some 0, some 4, some 2, some 3]) := by
  obtain ⟨pattern, hparse, hloops, htrail, p, hcompile⟩ : ∃ pattern,
      Pattern.parse "(?:(a)|b*)*c" {} = .ok pattern ∧ pattern.node.loopsAdvance = false ∧
      pattern.firstTrail 4 (Haystack.ofString "abac").start =
        some #[some 0, some 4, some 2, some 3] ∧
      ∃ p, compile 100 pattern = .ok p := by
    with_unfolding_all exact ⟨_, rfl, rfl, rfl, _, rfl⟩
  have hfirst := search_trails hparse hcompile (Haystack.start_mem_cursors (.ofString "abac")) 4
  exact ⟨pattern, p, hparse, hcompile, hloops, hfirst.finds htrail⟩

/-- **Empty iterations are not all that is rejected.** Behind the `x` the second iteration takes
nothing if its lazy piece is left out. A matcher that rejects the iteration for that lets the piece
take the `a`. But the first iteration has left the piece out at the same place, so a search has made
the choice already and gives the iteration up before it comes to that. -/
theorem exists_advancingBacktrack_ne : ∃ pattern p,
    Pattern.parse "(?:x?a??)*" {} = .ok pattern ∧ compile 100 pattern = .ok p ∧
    pattern.node.loopsAdvance = false ∧
    pattern.advancingBacktrack 2 (Haystack.ofString "xa").start = some #[some 0, some 2] ∧
    p.Finds { hay := .ofString "xa", start := (Haystack.ofString "xa").start } 2
      (some #[some 0, some 1]) := by
  obtain ⟨pattern, hparse, hloops, hback, htrail, p, hcompile⟩ : ∃ pattern,
      Pattern.parse "(?:x?a??)*" {} = .ok pattern ∧ pattern.node.loopsAdvance = false ∧
      pattern.advancingBacktrack 2 (Haystack.ofString "xa").start = some #[some 0, some 2] ∧
      pattern.firstTrail 2 (Haystack.ofString "xa").start = some #[some 0, some 1] ∧
      ∃ p, compile 100 pattern = .ok p := by
    with_unfolding_all exact ⟨_, rfl, rfl, rfl, rfl, _, rfl⟩
  obtain ⟨exit, hc, hw⟩ := exists_compiled hparse hcompile
  have hfirst := hc.findsFirst hw (Haystack.start_mem_cursors (.ofString "xa"))
    (hc.firstTrail_cases hw 2)
  exact ⟨pattern, p, hparse, hcompile, hloops, hback, hfirst.finds htrail⟩

/-! ## Searches in two texts -/

/-- What is found first in lists whose elements give the same, each in its own terms. -/
theorem findSome?_map_congr {α α' β β' γ : Type} {R : α → α' → Prop} {l : List α} {l' : List α'}
    {f : α → Option β} {f' : α' → Option β'} {g : β → γ} {g' : β' → γ}
    (h : List.Forall₂ R l l') (hf : ∀ x x', R x x' → (f x).map g = (f' x').map g') :
    (l.findSome? f).map g = (l'.findSome? f').map g' := by
  induction h with
  | nil => rfl
  | @cons x x' l l' hx _ ih =>
    have hfound := hf x x' hx
    rw [List.findSome?_cons, List.findSome?_cons]
    cases hfx : f x with
    | none =>
      rw [hfx, Option.map_none, eq_comm, Option.map_eq_none_iff] at hfound
      rw [hfound]
      exact ih
    | some y =>
      rw [hfx, Option.map_some, eq_comm, Option.map_eq_some_iff] at hfound
      obtain ⟨y', hfx', hy⟩ := hfound
      rw [hfx']
      exact congrArg some hy.symm

section

variable {source : String} {flags : Flags} {limit : Nat} {anchored : Bool}
  (hparse : Pattern.parse source flags = .ok pattern) (hcompile : compile limit pattern = .ok p)
include hparse hcompile

/-- A search finds the first trail from the places where it may start, anchored or not. -/
theorem finds_firstTrail (hstart : start ∈ hay.cursors) (anchored : Bool) (width : Nat) :
    p.Finds { hay, start, anchored } width
      ((startPlaces { hay, start, anchored }).findSome? (pattern.firstTrail width)) := by
  obtain ⟨exit, hc, hw⟩ := exists_compiled hparse hcompile
  cases anchored with
  | false => exact (hc.findsFirst hw hstart (hc.firstTrail_cases hw width)).finds_findSome?
  | true =>
    -- An anchored search has one place to start and asks no prefilter.
    have hplaces : startPlaces { hay, start, anchored := true } = [start] :=
      startPlaces_anchored rfl
    rw [hplaces, List.findSome?_singleton]
    rcases hc.firstTrail_cases hw width start with ⟨hnone, hno⟩ | ⟨r, hr, hsome⟩
    · rw [hnone]
      exact finds_none rfl (by simp) hstart (by simpa [hplaces] using hno)
    · rw [hsome]
      refine finds_some rfl (by simp) hstart (by simp [hplaces]) (fun x hx hlt => ?_) hr
      obtain rfl : x = start := by simpa [hplaces] using hx
      exact absurd hlt (Nat.lt_irrefl _)

/-- **Searches from places that are related find the same**, each in its own terms, if the first
trails from such places are the same in these terms. -/
theorem exists_finds_related {hay' : Haystack} {start' : Cursor} {R : Cursor → Cursor → Prop}
    {γ : Type} {terms terms' : Slots → γ} {width : Nat} (hstart : start ∈ hay.cursors)
    (hstart' : start' ∈ hay'.cursors)
    (hplaces : List.Forall₂ R (startPlaces { hay, start, anchored })
      (startPlaces { hay := hay', start := start', anchored }))
    (hfirst : ∀ q q', R q q' →
      (pattern.firstTrail width q).map terms = (pattern.firstTrail width q').map terms') :
    ∃ found found', p.Finds { hay, start, anchored } width found ∧
      p.Finds { hay := hay', start := start', anchored } width found' ∧
      found.map terms = found'.map terms' :=
  ⟨_, _, finds_firstTrail hparse hcompile hstart anchored width,
    finds_firstTrail hparse hcompile hstart' anchored width, findSome?_map_congr hplaces hfirst⟩

end

end Program

end LinearRegex
