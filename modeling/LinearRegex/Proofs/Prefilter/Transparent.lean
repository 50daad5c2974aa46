import LinearRegex.Proofs.Engine.Compiled
import LinearRegex.Proofs.Engine.Settled
import LinearRegex.Proofs.Prefilter.Landing

/-!
# A prefilter makes no difference

The prefilter of a compiled program finds, from every boundary, a boundary that is not behind the
next match. So a search ends as it would without a prefilter, with the same slots.

Main statement: `search_unfiltered`.
-/

namespace LinearRegex

namespace Program

variable {p : Program} {c : Config} {r s : List Config} {hay : Haystack}

/-- The program that looks for matches everywhere. -/
def unfiltered (p : Program) : Program := { p with prefilter := .anywhere }

/-! ## Runs do not ask the prefilter -/

theorem Accepts.of_instrs {p' : Program} (h : p.Accepts c r) (hi : p'.instrs = p.instrs)
    (hb : p'.brackets = p.brackets) : p'.Accepts c r := by
  induction h with
  | accept ha =>
    refine .accept ?_
    unfold IsAccept
    rw [hi]
    exact ha
  | step hd _ ih =>
    refine .step ?_ ih
    unfold successors takes
    rw [hi, hb]
    exact hd

theorem Before.of_instrs {p' : Program} (h : p.Before r s) (hi : p'.instrs = p.instrs) :
    p'.Before r s := by
  induction h with
  | split h ne => exact .split (by rw [hi]; exact h) ne
  | cons _ ih => exact .cons ih

theorem accepts_unfiltered : p.unfiltered.Accepts c r ↔ p.Accepts c r :=
  ⟨fun h => h.of_instrs rfl rfl, fun h => h.of_instrs rfl rfl⟩

theorem Preferred.unfiltered {allowed : List Config → Prop} (h : p.Preferred allowed c r) :
    p.unfiltered.Preferred allowed c r where
  accepts := accepts_unfiltered.mpr h.accepts
  isAllowed := h.isAllowed
  first := fun s hs ha => (h.first s (accepts_unfiltered.mp hs) ha).imp id (·.of_instrs rfl)

theorem prefilterSound_unfiltered (p : Program) (hay : Haystack) :
    p.unfiltered.PrefilterSound hay :=
  fun cur _ _ hq _ => ⟨cur.offset, rfl, Cursor.offset_le_of_mem_onward hq⟩

/-- What a search finds with a prefilter that leaves out no match, it finds without. -/
theorem finds_unfiltered (p : Program) (input : Input) (hbudget : input.budget = none)
    (hsound : p.PrefilterSound input.hay) (hstart : input.start ∈ input.hay.cursors) (width : Nat) :
    ∃ found, p.Finds input width found ∧ p.unfiltered.Finds input width found := by
  have hsound' := prefilterSound_unfiltered p input.hay
  obtain ⟨-, -, -, ⟨-, hnone⟩ | ⟨-, q, hq, hfirst, r, hr, -⟩⟩ :=
    p.search_startPlaces input hbudget (fun _ => hsound) hstart width {}
  · refine ⟨none, finds_none hbudget (fun _ => hsound) hstart hnone,
      finds_none hbudget (fun _ => hsound') hstart fun q hq r hr => ?_⟩
    exact hnone q hq r (accepts_unfiltered.mp hr)
  · refine ⟨_, finds_some hbudget (fun _ => hsound) hstart hq hfirst hr,
      finds_some hbudget (fun _ => hsound') hstart hq (fun x hx hlt r hr => ?_) hr.unfiltered⟩
    exact hfirst x hx hlt r (accepts_unfiltered.mp hr)

/-- **A prefilter leaves out no match, and makes no difference.** Wherever the program has an
anchored match, its prefilter finds a boundary that is not behind it, from every boundary before.
And a search ends as one without a prefilter does, with the same slots; so do searches with a
deadline that end before it. -/
theorem search_unfiltered {source : String} {flags : Flags} {limit : Nat} {pattern : Pattern}
    (hparse : Pattern.parse source flags = .ok pattern) (hcompile : compile limit pattern = .ok p)
    (hay : Haystack) :
    (∀ cur ∈ hay.cursors, ∀ q ∈ cur.onward,
      (∃ width cache cache',
        p.search { hay, start := q, anchored := true } width cache = (.ok true, cache')) →
      ∃ x ∈ cur.onward, p.prefilter.next? hay.bytes cur.offset = some x.offset ∧
        x.offset ≤ q.offset) ∧
    ∀ start ∈ hay.cursors, ∀ anchored width, ∃ found slots, ∀ p' ∈ [p, p.unfiltered], ∀ cache,
      (∃ cache', p'.search { hay, start, anchored } width cache = (.ok found, cache') ∧
        cache'.slots = slots) ∧
      ∀ budget ended cache',
        p'.search { hay, start, anchored, budget } width cache = (.ok ended, cache') →
        ended = found ∧ cache'.slots = slots := by
  obtain ⟨exit, hc, hw⟩ := exists_compiled hparse hcompile
  have hsound : p.PrefilterSound hay := hc.prefilterSound hw
  constructor
  · rintro cur hcur q hq ⟨width, cache, cache', hsearch⟩
    obtain ⟨found, cache'', heq, hfound, -⟩ := p.search_anchored_preferred hay q
      (Cursor.mem_onward_trans hcur hq) width cache
    rw [hsearch] at heq
    obtain rfl := Except.ok.inj (Prod.mk.inj heq).1
    obtain ⟨o, ho, hle⟩ := hsound cur hcur q hq (hfound.mp rfl)
    rw [hc.prefilter] at ho ⊢
    obtain ⟨x, hx, rfl⟩ := Node.exists_boundary_of_next? hcur ho
    exact ⟨x, hx, ho, hle⟩
  · intro start hstart anchored width
    obtain ⟨found, hp, hp'⟩ := p.finds_unfiltered { hay, start, anchored } rfl hsound hstart width
    refine ⟨found.isSome, found.getD (.replicate width none), ?_⟩
    intro p' hmem cache
    have hfinds : p'.Finds { hay, start, anchored } width found := by
      simp only [List.mem_cons, List.not_mem_nil, or_false] at hmem
      rcases hmem with rfl | rfl
      · exact hp
      · exact hp'
    exact ⟨hfinds.exists_search cache, fun _ _ _ hs => hfinds.of_budget rfl hs⟩

/-- A literal that ends within a character is looked for: the branches share its first byte. -/
theorem search_unfiltered_shared_byte : ∃ pattern p, Pattern.parse "é|è" {} = .ok pattern ∧
    compile 100 pattern = .ok p ∧ p.prefilter = .literal ⟨[0xC3]⟩ ∧
    ∃ found slots, ∀ p' ∈ [p, p.unfiltered], ∀ cache, ∃ cache',
      p'.search { hay := .ofString "aéè", start := (Haystack.ofString "aéè").start } 2 cache =
        (.ok found, cache') ∧ cache'.slots = slots := by
  obtain ⟨pattern, hparse, p, hcompile, hprefilter⟩ : ∃ pattern,
      Pattern.parse "é|è" {} = .ok pattern ∧
      ∃ p, compile 100 pattern = .ok p ∧ p.prefilter = .literal ⟨[0xC3]⟩ := by
    with_unfolding_all exact ⟨_, rfl, _, rfl, rfl⟩
  obtain ⟨-, hsame⟩ := search_unfiltered hparse hcompile (.ofString "aéè")
  obtain ⟨found, slots, hends⟩ := hsame _ (Haystack.start_mem_cursors _) false 2
  exact ⟨pattern, p, hparse, hcompile, hprefilter, found, slots,
    fun p' hp' cache => (hends p' hp' cache).1⟩

/-- With a deadline it makes a difference. A prefilter takes a search past places that it would have
to look at one by one, so that it may find a match before the deadline that it would not reach. -/
theorem exists_unfiltered_timeout : ∃ pattern p, Pattern.parse "b" {} = .ok pattern ∧
    compile defaultLimit pattern = .ok p ∧
    let hay := Haystack.ofString "aaaaaab"
    (p.search { hay, start := hay.start, budget := some 2 } 2 {}).1 = .ok true ∧
    (p.unfiltered.search { hay, start := hay.start, budget := some 2 } 2 {}).1 = .error ⟨2⟩ := by
  with_unfolding_all exact ⟨_, _, rfl, rfl, by decide +kernel, by decide +kernel⟩

end Program

end LinearRegex
