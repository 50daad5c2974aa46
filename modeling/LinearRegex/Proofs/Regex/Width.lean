import LinearRegex.Proofs.Engine.Compiled
import LinearRegex.Proofs.Engine.Settled
import LinearRegex.Regex.Basic

/-!
# How many slots are recorded

Whether there is a match does not depend on how many slots are recorded, and fewer slots are the
first of more. So the searches for whether there is a match, for where it is and for its groups
agree, each of which records as many slots as it needs.

Main statements: `Program.search_take`, and `Regex.searches_agree` for the searches of an
expression.
-/

namespace LinearRegex

namespace Program

variable {p : Program} {input : Input} {width full n : Nat} {q : Cursor} {r : List Config}

/-! ## Fewer slots -/

theorem recordAt_take (p : Program) (c : Config) (slots : Slots) (n : Nat) :
    (p.recordAt c slots).take n = p.recordAt c (slots.take n) := by
  unfold recordAt
  split
  · refine Array.ext_getElem? fun i => ?_
    simp only [Array.take_eq_extract, Array.getElem?_extract, Array.getElem?_setIfInBounds,
      Array.size_setIfInBounds, Array.size_extract]
    grind
  · rfl

/-- A run records the same in the first slots, whether there are more or not. -/
theorem recorded_take (p : Program) (r : List Config) (slots : Slots) (n : Nat) :
    (p.recorded r slots).take n = p.recorded r (slots.take n) := by
  induction r generalizing slots with
  | nil => rfl
  | cons c r ih => rw [recorded_cons, recorded_cons, ih, recordAt_take]

theorem replicate_take (h : width ≤ full) :
    (Array.replicate full (none : Slot)).take width = .replicate width none := by
  refine Array.ext_getElem? fun i => ?_
  simp only [Array.take_eq_extract, Array.getElem?_extract, Array.getElem?_replicate,
    Array.size_replicate]
  grind

/-! ## Searches that record more or less -/

section

variable (p) (input) (hbudget : input.budget = none)
  (hsound : input.anchored = false → p.PrefilterSound input.hay)
  (hstart : input.start ∈ input.hay.cursors)
include hbudget hsound hstart

/-- Whatever is recorded, there is no match, or one run tells all that is recorded. -/
theorem exists_found :
    (∀ width, p.Finds input width none) ∨
      ∃ q ∈ startPlaces input, ∃ r, p.Accepts ⟨0, q⟩ r ∧
        ∀ width, p.Finds input width (some (p.recorded r (.replicate width none))) := by
  obtain ⟨-, -, -, ⟨-, hnone⟩ | ⟨-, q, hq, hfirst, r, hr, -⟩⟩ :=
    p.search_startPlaces input hbudget hsound hstart 0 {}
  · exact Or.inl fun width => finds_none hbudget hsound hstart hnone
  · exact Or.inr ⟨q, hq, r, hr.accepts,
      fun width => finds_some hbudget hsound hstart hq hfirst hr⟩

/-- **Fewer slots are the first of more.** -/
theorem search_take (hle : width ≤ full) (few many : Cache) :
    ∃ found few' many', p.search input width few = (.ok found, few') ∧
      p.search input full many = (.ok found, many') ∧ few'.slots = many'.slots.take width := by
  -- Without a match all slots are empty, and else a run tells them.
  have hfinds : ∃ found : Option Slots, p.Finds input full found ∧
      p.Finds input width (found.map (·.take width)) := by
    rcases exists_found p input hbudget hsound hstart with hnone | ⟨q, -, r, -, hr⟩
    · exact ⟨none, hnone full, hnone width⟩
    · refine ⟨_, hr full, ?_⟩
      rw [Option.map_some, recorded_take, replicate_take hle]
      exact hr width
  obtain ⟨found, hfull, hwidth⟩ := hfinds
  obtain ⟨few', hfew, hslots⟩ := hwidth.exists_search few
  obtain ⟨many', hmany, hslots'⟩ := hfull.exists_search many
  refine ⟨found.isSome, few', many', by rw [hfew, Option.isSome_map], hmany, ?_⟩
  rw [hslots, hslots']
  cases found with
  | none => exact (replicate_take hle).symm
  | some slots => rfl

end

end Program

/-! ## The searches of an expression -/

namespace Regex

variable {re : Regex} {hay : Haystack} {start : Cursor} {width : Nat} {found : Option Slots}

section

variable (h : re.program.Finds { hay, start } width found)
include h

theorem searchSlots_of_finds (cache : Cache) :
    ∃ cache', re.searchSlots hay start width cache = (found.isSome, cache') ∧
      ∀ slots, found = some slots → cache'.slots = slots := by
  obtain ⟨cache', heq, hslots⟩ := h cache
  refine ⟨cache', ?_, hslots⟩
  unfold searchSlots
  rw [heq]

theorem isMatchFrom_of_finds (hwidth : width = 0) : re.isMatchFrom hay start = found.isSome := by
  subst hwidth
  obtain ⟨cache', heq, -⟩ := searchSlots_of_finds h re.createCache
  unfold isMatchFrom
  rw [heq]

theorem findFrom_of_finds (hwidth : width = 2) :
    re.findFrom hay start = found.bind fun slots =>
      (Span.ofSlots? (slots.getD 0 none) (slots.getD 1 none)).map hay.matchAt := by
  subst hwidth
  obtain ⟨cache', heq, hslots⟩ := searchSlots_of_finds h re.createCache
  unfold findFrom
  rw [heq]
  cases found with
  | none => rfl
  | some slots =>
    rw [← hslots slots rfl]
    rfl

theorem capturesFrom_of_finds (hwidth : width = re.program.slotCount) :
    re.capturesFrom hay start = found.map (re.capturesOf hay) := by
  subst hwidth
  obtain ⟨cache', heq, hslots⟩ := searchSlots_of_finds h re.createCache
  unfold capturesFrom
  rw [heq]
  cases found with
  | none => rfl
  | some slots =>
    rw [← hslots slots rfl]
    rfl

end

/-- A search with all settings gives the groups, whatever cache it is given. -/
theorem search_of_finds {anchored : Bool}
    (h : re.program.Finds { hay, start, anchored } width found)
    (hwidth : width = re.program.slotCount) {offset : Nat}
    (hcursor : hay.cursorAt offset = .ok (some start)) (cache : Cache) :
    (re.search { hay, start := offset, anchored } cache).map Prod.fst =
      .ok (.ok (found.map (re.capturesOf hay))) := by
  subst hwidth
  obtain ⟨cache', heq, hslots⟩ := h cache
  unfold search
  dsimp only
  rw [hcursor]
  simp only [Except.map]
  rw [heq]
  cases found with
  | none => rfl
  | some slots =>
    rw [← hslots slots rfl]
    rfl

/-- An expression is read and compiled. -/
theorem exists_parse_of_build {pattern : String} {options : Options}
    (h : build pattern options = .ok re) : ∃ tree,
      Pattern.parse pattern options.flags = .ok tree ∧
        Program.compile options.sizeLimit tree = .ok re.program := by
  unfold build at h
  split at h
  · simp at h
  · next tree hparse =>
    split at h
    · simp at h
    · next program hcompile =>
      obtain rfl := Except.ok.inj h
      exact ⟨tree, hparse, hcompile⟩

/-- What an expression is compiled to. -/
theorem exists_compiled_of_build {pattern : String} {options : Options}
    (h : build pattern options = .ok re) :
    ∃ tree exit, re.program.Compiled tree exit ∧ tree.node.WellFormed ∧
      2 ≤ re.program.slotCount := by
  obtain ⟨tree, hparse, hcompile⟩ := exists_parse_of_build h
  obtain ⟨exit, hc, hw⟩ := Program.exists_compiled hparse hcompile
  refine ⟨tree, exit, hc, hw, ?_⟩
  have hgroups := (Pattern.parse_written hparse).2
  rw [← hc.groupNames] at hgroups
  unfold Program.slotCount Program.groupCount
  omega

/-- The whole match among the groups. -/
theorem get?_capturesOf (re : Regex) (hay : Haystack) {slots : Slots} {i j : Nat}
    (hsize : slots.size = re.program.slotCount) (hi : slots[0]? = some (some i))
    (hj : slots[1]? = some (some j)) :
    (re.capturesOf hay slots).get? 0 = some (hay.matchAt ⟨i, j⟩) := by
  have hresize := Slots.resize_of_size_eq hsize
  simp [capturesOf, Captures.get?, Captures.span?, hresize, hi, hj, Span.ofSlots?]

/-- The searches from one place agree. -/
theorem searches_agree_from {tree : Pattern} {exit : Nat} (hc : re.program.Compiled tree exit)
    (hw : tree.node.WellFormed) (hgroups : 2 ≤ re.program.slotCount)
    (hstart : start ∈ hay.cursors) :
    re.isMatchFrom hay start = (re.findFrom hay start).isSome ∧
      re.isMatchFrom hay start = (re.capturesFrom hay start).isSome ∧
      re.findFrom hay start = (re.capturesFrom hay start).bind (·.get? 0) ∧
      ∀ offset, hay.cursorAt offset = .ok (some start) → ∀ cache,
        (re.search { hay, start := offset } cache).map Prod.fst =
          .ok (.ok (re.capturesFrom hay start)) := by
  rcases Program.exists_found re.program { hay, start } rfl (fun _ => hc.prefilterSound hw)
    hstart with hnone | ⟨q, -, r, hr, hfinds⟩
  · rw [isMatchFrom_of_finds (hnone 0) rfl, findFrom_of_finds (hnone 2) rfl,
      capturesFrom_of_finds (hnone _) rfl]
    exact ⟨rfl, rfl, rfl, fun _ => search_of_finds (hnone _) rfl⟩
  · -- The first two slots are recorded, however many there are.
    obtain ⟨j, -, hbounds⟩ := hc.matches_of_accepts hw hr
    have hwhole := fun width (hwidth : 2 ≤ width) =>
      hbounds (.replicate width none) (by rwa [Array.size_replicate])
    obtain ⟨hi, hj⟩ := hwhole 2 (Nat.le_refl 2)
    obtain ⟨hi', hj'⟩ := hwhole _ hgroups
    have hget := get?_capturesOf re hay (by simp) hi' hj'
    have hfind := findFrom_of_finds (hfinds 2) rfl
    rw [Option.bind_some, Array.getD_eq_getD_getElem?, Array.getD_eq_getD_getElem?, hi, hj] at hfind
    rw [isMatchFrom_of_finds (hfinds 0) rfl, hfind, capturesFrom_of_finds (hfinds _) rfl]
    exact ⟨rfl, rfl, hget.symm, fun _ => search_of_finds (hfinds _) rfl⟩

theorem mem_cursors_of_cursorAt {offset : Nat} (h : hay.cursorAt offset = .ok (some start)) :
    start ∈ hay.cursors := by
  unfold Haystack.cursorAt at h
  split at h
  · simp at h
  · dsimp only at h
    split at h
    · obtain rfl := Option.some.inj (Except.ok.inj h)
      exact hay.start.advanceTo_mem_onward offset
    · simp at h

/-- **The number of recorded slots has no influence on what is found.** A search that records fewer
slots than there are ends as one that records all, with the first of their slots; so does a search
with a deadline, if it ends before. The searches for whether there is a match, for where it is and
for its groups agree. -/
theorem searches_agree {pattern : String} {options : Options}
    (h : build pattern options = .ok re) (hay : Haystack) :
    (∀ start ∈ hay.cursors, ∀ anchored width, width ≤ re.program.slotCount → ∀ few many : Cache,
      ∃ found few' many',
        re.program.search { hay, start, anchored } width few = (.ok found, few') ∧
        re.program.search { hay, start, anchored } re.program.slotCount many = (.ok found, many') ∧
        few'.slots = many'.slots.take width ∧
        ∀ budget ended few'',
          re.program.search { hay, start, anchored, budget } width few = (.ok ended, few'') →
          ended = found ∧ few''.slots = few'.slots) ∧
    re.isMatch hay = (re.find hay).isSome ∧ re.isMatch hay = (re.captures hay).isSome ∧
    ∀ offset, re.findAt hay offset = (re.capturesAt hay offset).map (·.bind (·.get? 0)) ∧
      ∀ cache, (re.search { hay, start := offset } cache).map Prod.fst =
        (re.capturesAt hay offset).map .ok := by
  obtain ⟨tree, exit, hc, hw, hgroups⟩ := exists_compiled_of_build h
  have hfrom : ∀ start ∈ hay.cursors, _ := fun start hstart =>
    searches_agree_from hc hw hgroups hstart
  obtain ⟨hfind, hcaptures, -⟩ := hfrom hay.start hay.start_mem_cursors
  refine ⟨?_, hfind, hcaptures, ?_⟩
  · intro start hstart anchored width hle few many
    obtain ⟨found, few', many', hfew, hmany, hslots⟩ := re.program.search_take
      { hay, start, anchored } rfl (fun _ => hc.prefilterSound hw) hstart hle few many
    refine ⟨found, few', many', hfew, hmany, hslots, ?_⟩
    intro budget ended few'' hended
    have hended := Program.search_of_budget { hay, start, anchored } hended
    obtain ⟨hfound, hcache⟩ := Prod.mk.inj (hended.symm.trans hfew)
    exact ⟨Except.ok.inj hfound, by rw [hcache]⟩
  · intro offset
    unfold findAt capturesAt
    cases hcursor : hay.cursorAt offset with
    | error e =>
      refine ⟨rfl, fun cache => ?_⟩
      unfold search
      rw [hcursor]
      rfl
    | ok start =>
      cases start with
      | none =>
        refine ⟨rfl, fun cache => ?_⟩
        unfold search
        rw [hcursor]
        rfl
      | some start =>
        obtain ⟨-, -, hget, hsearch⟩ := hfrom start (mem_cursors_of_cursorAt hcursor)
        refine ⟨?_, hsearch offset hcursor⟩
        simp only [Except.map, Option.bind_some]
        rw [hget]

theorem searches_agree_alternation : ∃ re, build "(a)|(b)c" = .ok re ∧
    (∀ few many : Cache, ∃ found few' many',
      re.program.search
          { hay := .ofString "abc", start := (Haystack.ofString "abc").start, anchored := true } 4
          few = (.ok found, few') ∧
      re.program.search
          { hay := .ofString "abc", start := (Haystack.ofString "abc").start, anchored := true }
          re.program.slotCount many = (.ok found, many') ∧
      few'.slots = many'.slots.take 4) ∧
    re.findAt (.ofString "abc") 1 =
      (re.capturesAt (.ofString "abc") 1).map (·.bind (·.get? 0)) := by
  obtain ⟨re, hbuild, hle⟩ : ∃ re, build "(a)|(b)c" = .ok re ∧ 4 ≤ re.program.slotCount := by
    with_unfolding_all exact ⟨_, rfl, by decide⟩
  obtain ⟨hslots, -, -, hat⟩ := searches_agree hbuild (.ofString "abc")
  refine ⟨re, hbuild, fun few many => ?_, (hat 1).1⟩
  obtain ⟨found, few', many', hfew, hmany, htake, -⟩ :=
    hslots _ (Haystack.start_mem_cursors _) true 4 hle few many
  exact ⟨found, few', many', hfew, hmany, htake⟩

end Regex

end LinearRegex
