import LinearRegex.Proofs.Engine.Trails
import LinearRegex.Proofs.Pattern.SuffixTrails
import LinearRegex.Proofs.Regex.Matches

/-!
# Searches that start behind other text

A search that starts at an offset sees the text before it, but only conditions ask for that. Where a
pattern has none, the search is one of the text from the offset on, and what it finds lies as many
bytes further as the offset says.

Main statement: `Regex.capturesAt_sliceFrom`.
-/

namespace LinearRegex

/-- A boundary of a text stands to the beginning of the text behind it as it does to itself. -/
theorem Cursor.laterBy_sliceFrom {hay : Haystack} {start : Cursor} (h : start ∈ hay.cursors) :
    start.LaterBy start.offset (Haystack.ofString (hay.sliceFrom start.offset)).start := by
  refine ⟨rfl, ?_⟩
  rw [Haystack.sliceFrom_offset h]
  exact String.toList_ofList.symm

namespace Regex

variable {re : Regex} {pattern : String} {options : Options} {tree : Pattern} {hay : Haystack}
variable {offset : Nat}

/-- **Without conditions, a search from an offset is a search of the text behind it.** If no part of
what a pattern is read to is a condition, then from any boundary of any text there is a match just
when there is one in the text from there on, and then all groups are found in the same places,
counted from there. The same holds of searches that are anchored, and whatever caches are used. -/
theorem capturesAt_sliceFrom (hbuild : build pattern options = .ok re)
    (hparse : Pattern.parse pattern options.flags = .ok tree)
    (hfree : ∀ a, ¬ tree.node.Part (.assertion a)) (hoffset : hay.IsBoundary offset) :
    (∃ found, re.capturesAt hay offset = .ok found ∧
      found.map Captures.slots =
        (re.captures (.ofString (hay.sliceFrom offset))).map fun caps =>
          caps.slots.laterBy offset) ∧
    ∀ (anchored : Bool) (cache cache' : Cache), ∃ found found',
      (re.search { hay, start := offset, anchored } cache).map Prod.fst = .ok (.ok found) ∧
      (re.search { hay := .ofString (hay.sliceFrom offset), anchored } cache').map Prod.fst =
        .ok (.ok found') ∧
      found.map Captures.slots = found'.map fun caps => caps.slots.laterBy offset := by
  obtain ⟨start, hstart, rfl⟩ := hoffset
  generalize htail : Haystack.ofString (hay.sliceFrom start.offset) = tail
  have hlater : start.LaterBy start.offset tail.start := htail ▸ Cursor.laterBy_sliceFrom hstart
  obtain ⟨tree', hparse', hcompile⟩ := exists_parse_of_build hbuild
  obtain rfl := Except.ok.inj (hparse.symm.trans hparse')
  -- What both searches find has the same groups, counted from each place.
  have hfinds : ∀ anchored, ∃ found found',
      re.program.Finds { hay, start, anchored } re.program.slotCount found ∧
      re.program.Finds { hay := tail, start := tail.start, anchored } re.program.slotCount found' ∧
      found.map (fun slots => (re.capturesOf hay slots).slots) =
        found'.map fun slots => (re.capturesOf tail slots).slots.laterBy start.offset := by
    intro anchored
    refine Program.exists_finds_related hparse hcompile hstart tail.start_mem_cursors
      (R := Cursor.LaterBy start.offset) ?_ fun q q' hq => ?_
    · cases anchored with
      | false => exact hlater.forall₂_onward
      | true => exact .cons hlater .nil
    · rw [Pattern.firstTrail_laterBy hfree hq, Option.map_map]
      refine congrArg (fun f => Option.map f _) (funext fun slots => ?_)
      exact Slots.resize_laterBy slots re.program.slotCount
  refine ⟨?_, fun anchored cache cache' => ?_⟩
  · obtain ⟨found, found', h, h', hsame⟩ := hfinds false
    refine ⟨re.capturesFrom hay start, ?_, ?_⟩
    · unfold capturesAt
      rw [cursorAt_offset hstart]
      rfl
    · unfold captures
      rw [capturesFrom_of_finds h rfl, capturesFrom_of_finds h' rfl, Option.map_map, Option.map_map]
      exact hsame
  · obtain ⟨found, found', h, h', hsame⟩ := hfinds anchored
    refine ⟨_, _, search_of_finds h rfl (cursorAt_offset hstart) cache,
      search_of_finds h' rfl (cursorAt_offset tail.start_mem_cursors) cache', ?_⟩
    rw [Option.map_map, Option.map_map]
    exact hsame

/-- A group behind a character of two bytes, where a search from the beginning would take that
character as well. -/
theorem capturesAt_sliceFrom_behind : ∃ re tree, build "(é+)" = .ok re ∧
    Pattern.parse "(é+)" {} = .ok tree ∧ (∀ a, ¬ tree.node.Part (.assertion a)) ∧
    (Haystack.ofString "ééa").IsBoundary 2 ∧
    (∃ found, re.capturesAt (.ofString "ééa") 2 = .ok found ∧
      found.map Captures.slots =
        (re.captures (.ofString "éa")).map fun caps => caps.slots.laterBy 2) ∧
    ∃ found found',
      (re.search { hay := .ofString "ééa", start := 2, anchored := true } {}).map Prod.fst =
        .ok (.ok found) ∧
      (re.search { hay := .ofString "éa", anchored := true } {}).map Prod.fst = .ok (.ok found') ∧
      found.map Captures.slots = found'.map fun caps => caps.slots.laterBy 2 := by
  obtain ⟨re, tree, hbuild, hparse, hnode⟩ : ∃ re tree, build "(é+)" = .ok re ∧
      Pattern.parse "(é+)" {} = .ok tree ∧
      tree.node = .group (.loop (.char 'é' false) ⟨1, none, true⟩) 1 none := by
    with_unfolding_all exact ⟨_, _, rfl, rfl, rfl⟩
  have hfree : ∀ a, ¬ tree.node.Part (.assertion a) := by
    intro a h
    rw [hnode] at h
    obtain ⟨m, hm, h⟩ := h.eq_or_of_child.resolve_left (by simp)
    obtain rfl := List.mem_singleton.mp hm
    obtain ⟨m, hm, h⟩ := h.eq_or_of_child.resolve_left (by simp)
    obtain rfl := List.mem_singleton.mp hm
    obtain ⟨m, hm, -⟩ := h.eq_or_of_child.resolve_left (by simp)
    simp [Node.children] at hm
  have hoffset : (Haystack.ofString "ééa").IsBoundary 2 :=
    ⟨(Haystack.ofString "ééa").start.next, Haystack.next_mem_cursors (Haystack.start_mem_cursors _),
      by decide +kernel⟩
  have hslice : (Haystack.ofString "ééa").sliceFrom 2 = "éa" := by decide +kernel
  obtain ⟨hcaptures, hanchored⟩ := capturesAt_sliceFrom hbuild hparse hfree hoffset
  rw [hslice] at hcaptures hanchored
  exact ⟨re, tree, hbuild, hparse, hfree, hoffset, hcaptures, hanchored true {} {}⟩

end Regex

end LinearRegex
