import LinearRegex.Proofs.Engine.Trails
import LinearRegex.Proofs.Pattern.Groups
import LinearRegex.Proofs.Pattern.Numbering
import LinearRegex.Proofs.Regex.Width
import LinearRegex.Proofs.Text.Slice
import Mathlib.Algebra.Group.Nat.Defs

/-!
# What captures tell

The groups of a match that a search has found. The slots are those of the first trail, so they tell
a stretch of the text for the whole match, and for each other group a stretch within that one or
nothing. All that can be asked of the groups is then the same, and what they match can be cut out of
the text.

Main statements: `Program.Compiled.describes_of_search` for the slots that a search leaves, and
`Regex.captures_wellFormed` for the searches of an expression.
-/

namespace LinearRegex

/-- The slots of a match between two places: group 0 is all of it, and no group goes beyond it. -/
structure Slots.Describes (slots : Slots) (width : Nat) (i j : Cursor) : Prop where
  size : slots.size = width
  whole : 2 ≤ width → slots.Records 0 i j
  groups : slots.GroupsWithin i j

namespace Program

variable {p : Program} {pattern : Pattern} {exit width : Nat} {input : Input}

namespace Compiled

variable (hc : p.Compiled pattern exit) (hw : pattern.node.WellFormed)
include hc hw

/-- The preferred run describes a match, as far as slots are recorded. -/
theorem exists_describes {q : Cursor} {r : List Config} (hr : p.Preferred List.Nodup ⟨0, q⟩ r) :
    ∃ j ∈ q.onward, ∀ width, (p.recorded r (.replicate width none)).Describes width q j := by
  obtain ⟨j, hj, hbounds⟩ := hc.matches_of_accepts hw hr.accepts
  refine ⟨j, hj.mem_onward, fun width => ?_⟩
  have htrail : pattern.firstTrail width q = some (p.recorded r (.replicate width none)) := by
    rcases hc.firstTrail_cases hw width q with ⟨-, hnone⟩ | ⟨s, hs, htrail⟩
    · exact absurd hr.accepts (hnone r)
    · rw [htrail, hs.unique hr]
  obtain ⟨last, hlast, hsize, hgroups, hstop⟩ := Pattern.exists_groups_of_firstTrail htrail
  refine ⟨hsize, ?_, ?_⟩
  · intro hwidth
    obtain ⟨h₀, h₁⟩ := hbounds (.replicate width none) (by rwa [Array.size_replicate])
    exact ⟨h₀, h₁⟩
  · intro g hg
    -- Where there are slots for a group, the end of the match is recorded as well.
    have hwidth : 2 ≤ width := by omega
    obtain ⟨-, h₁⟩ := hbounds (.replicate width none) (by rwa [Array.size_replicate])
    have hoffset := (hstop hwidth).symm.trans h₁
    simp only [Option.some.injEq] at hoffset
    obtain rfl := Cursor.eq_of_offset_eq hlast hj.mem_onward hoffset
    exact hgroups g hg

/-- **The slots that a search leaves behind describe the match it has found.** -/
theorem describes_of_search {cache cache' : Cache} (hstart : input.start ∈ input.hay.cursors)
    (hs : p.search input width cache = (.ok true, cache')) :
    ∃ i ∈ startPlaces input, ∃ j ∈ i.onward, cache'.slots.Describes width i j := by
  obtain ⟨found, cache'', heq, h⟩ := p.search_startPlaces { input with budget := none } rfl
    (fun _ => hc.prefilterSound hw) hstart width cache
  obtain ⟨hfound, rfl⟩ := Prod.mk.inj ((search_of_budget input hs).symm.trans heq)
  rcases h with ⟨hfalse, -⟩ | ⟨-, i, hi, -, r, hr, hslots⟩
  · rw [← Except.ok.inj hfound] at hfalse
    simp at hfalse
  · obtain ⟨j, hj, hdescribes⟩ := hc.exists_describes hw hr
    exact ⟨i, hi, j, hj, hslots ▸ hdescribes width⟩

end Compiled

end Program

/-! ## Matches in a text -/

/-- Whether a text can be cut at an offset. -/
def Haystack.IsBoundary (hay : Haystack) (n : Nat) : Prop := ∃ cur ∈ hay.cursors, cur.offset = n

/-- A match that can be cut out of a text: it lies between two boundaries, and what it holds is what
stands there. -/
structure Match.StandsIn (m : Match) (hay : Haystack) : Prop where
  start_le_stop : m.start ≤ m.stop
  stop_le_size : m.stop ≤ hay.size
  start_boundary : hay.IsBoundary m.start
  stop_boundary : hay.IsBoundary m.stop
  text : ∃ before behind, hay.chars = before ++ m.text.toList ++ behind ∧
    Utf8.byteLength before = m.start ∧ m.start + Utf8.byteLength m.text.toList = m.stop

theorem Haystack.matchAt_standsIn {hay : Haystack} {i j : Cursor} (hi : i ∈ hay.cursors)
    (hj : j ∈ i.onward) : (hay.matchAt ⟨i.offset, j.offset⟩).StandsIn hay where
  start_le_stop := Cursor.offset_le_of_mem_onward hj
  stop_le_size := offset_le_size (Cursor.mem_onward_trans hi hj)
  start_boundary := ⟨i, hi, rfl⟩
  stop_boundary := ⟨j, Cursor.mem_onward_trans hi hj, rfl⟩
  text := by
    obtain ⟨before, hchars, hbefore⟩ := exists_slice hi hj
    exact ⟨before, j.rest, hchars, hbefore, byteLength_slice hi hj⟩

theorem Span.ofSlots?_eq_some {start stop : Slot} {s : Span} :
    Span.ofSlots? start stop = some s ↔ start = some s.start ∧ stop = some s.stop := by
  obtain ⟨first, last⟩ := s
  cases start <;> cases stop <;> simp [ofSlots?]

/-- Where a group takes part, its slots are the ends of a stretch. -/
theorem Slots.GroupsWithin.exists_of_span {slots : Slots} {i j : Cursor} {g : Nat} {s : Span}
    (h : slots.GroupsWithin i j)
    (hs : Span.ofSlots? (slots.getD (2 * g) none) (slots.getD (2 * g + 1) none) = some s) :
    ∃ a ∈ i.onward, ∃ b ∈ a.onward, j ∈ b.onward ∧ s = ⟨a.offset, b.offset⟩ := by
  obtain ⟨hstart, hstop⟩ := Span.ofSlots?_eq_some.mp hs
  rw [Array.getD_eq_getD_getElem?] at hstart hstop
  have hg : 2 * g + 1 < slots.size := by
    by_cases hlt : 2 * g + 1 < slots.size
    · exact hlt
    · rw [Array.getElem?_eq_none (by omega)] at hstop
      simp at hstop
  rcases h g hg with ⟨hnone, -⟩ | ⟨a, ha, b, hb, hj, hrecords⟩
  · rw [hnone] at hstart
    simp at hstart
  · rw [hrecords.start, Option.getD_some, Option.some.injEq] at hstart
    rw [hrecords.stop, Option.getD_some, Option.some.injEq] at hstop
    exact ⟨a, ha, b, hb, hj, by rw [hstart, hstop]⟩

/-! ## What can be asked of captures -/

namespace Captures

variable {caps : Captures} {g : Nat}

/-- Two slots for each group make one span for each group. -/
theorem pairSpans_eq {slots : List Slot} {n : Nat} (h : slots.length = 2 * n) :
    pairSpans slots = (List.range n).map fun g =>
      Span.ofSlots? (slots.getD (2 * g) none) (slots.getD (2 * g + 1) none) := by
  induction n generalizing slots with
  | zero =>
    rw [List.length_eq_zero_iff.mp h]
    rfl
  | succ n ih =>
    match slots, h with
    | start :: stop :: slots, h =>
      have hlen : slots.length = 2 * n := by
        simp only [List.length_cons] at h
        omega
      rw [pairSpans, ih hlen, List.range_succ_eq_map, List.map_cons, List.map_map]
      rfl

theorem firstSlot_eq (i : Nat) : firstSlot i = 2 * (i % 2 ^ 63) :=
  Nat.mul_mod_mul_left 2 i (2 ^ 63)

theorem firstSlot_of_lt {i : Nat} (h : i < 2 ^ 63) : firstSlot i = 2 * i := by
  rw [firstSlot_eq, Nat.mod_eq_of_lt h]

example : firstSlot (2 ^ 63 + 1) = firstSlot 1 := by decide

/-- A number from 2^63 on is taken for a smaller one. -/
theorem get?_mod (caps : Captures) (g : Nat) : caps.get? (g % 2 ^ 63) = caps.get? g := by
  unfold get? span?
  rw [firstSlot_eq, firstSlot_eq, Nat.mod_mod]

theorem spans_eq (h : caps.slots.size = 2 * caps.size) (hfew : caps.size ≤ 2 ^ 63) :
    caps.spans = (List.range caps.size).map caps.span? := by
  have hlen : caps.slots.toList.length = 2 * caps.size := by rwa [Array.length_toList]
  unfold spans
  rw [pairSpans_eq hlen]
  refine List.map_congr_left fun g hg => ?_
  unfold span?
  rw [firstSlot_of_lt (Nat.lt_of_lt_of_le (List.mem_range.mp hg) hfew)]
  simp only [List.getD_eq_getElem?_getD, Array.getElem?_toList, Array.getD_eq_getD_getElem?]

/-- The span of a match is the span it was made of. -/
theorem toSpan_get? (caps : Captures) (g : Nat) :
    (caps.get? g).map Match.toSpan = caps.span? g := by
  unfold get?
  rw [Option.map_map]
  exact congrFun Option.map_id (caps.span? g)

/-- **The places of the groups in order** are those of what the groups match. -/
theorem spans_eq_groups (h : caps.slots.size = 2 * caps.size) (hfew : caps.size ≤ 2 ^ 63) :
    caps.spans = caps.groups.map (·.map Match.toSpan) := by
  rw [spans_eq h hfew, groups, List.map_map]
  refine List.map_congr_left fun g _ => ?_
  exact (caps.toSpan_get? g).symm

/-- **One group** is the one at its place among all groups, and there is none beyond the last, as
far as the numbers do not wrap. -/
theorem get?_eq_groups (h : caps.slots.size = 2 * caps.size) (g : Nat) :
    caps.get? g = caps.groups[g % 2 ^ 63]?.join := by
  rw [← get?_mod]
  have hlt : g % 2 ^ 63 < 2 ^ 63 := Nat.mod_lt g (Nat.two_pow_pos 63)
  generalize g % 2 ^ 63 = i at hlt
  by_cases hi : i < caps.size
  · simp [groups, hi]
  · have hslot : caps.slots.getD (firstSlot i) none = none := by
      rw [firstSlot_of_lt hlt, Array.getD_eq_getD_getElem?, Array.getElem?_eq_none (by omega)]
      rfl
    have hnone : caps.get? i = none := by
      unfold get? span?
      rw [hslot]
      rfl
    rw [hnone]
    simp [groups, hi]

/-- **The groups with names** are those of all groups that have one. -/
theorem namedGroups_eq (caps : Captures) :
    caps.namedGroups = (caps.groupNames.toList.zip caps.groups).filterMap fun (name, m) =>
      name.map (·, m) := by
  have hnames : caps.groupNames.toList =
      (List.range caps.size).map fun g => caps.groupNames.getD g none := by
    refine List.ext_getElem (by simp [size]) fun g h₁ h₂ => ?_
    have hg : g < caps.groupNames.size := by simpa using h₁
    simp [Array.getD, hg]
  rw [hnames, groups, List.zip_map', List.filterMap_map]
  rfl

/-- Captures as a search in a text leaves them that started at an offset: there is the whole match,
all other groups lie within it, and whatever is asked of a group, the same is told. -/
structure WellFormed (caps : Captures) (re : Regex) (hay : Haystack) (offset : Nat) : Prop where
  hay_eq : caps.hay = hay
  size_eq : caps.size = re.groupCount
  size_slots : caps.slots.size = 2 * caps.size
  whole : ∃ first last, caps.slots[0]? = some (some first) ∧ caps.slots[1]? = some (some last) ∧
    offset ≤ first ∧ first ≤ last ∧ last ≤ hay.size ∧
    ∀ g < caps.size, (caps.slots[2 * g]? = some none ∧ caps.slots[2 * g + 1]? = some none) ∨
      ∃ start stop, caps.slots[2 * g]? = some (some start) ∧
        caps.slots[2 * g + 1]? = some (some stop) ∧ hay.IsBoundary start ∧
        hay.IsBoundary stop ∧ first ≤ start ∧ start ≤ stop ∧ stop ≤ last
  standsIn : ∀ g m, caps.get? g = some m → m.StandsIn hay
  length_groups : caps.groups.length = caps.size
  get?_eq_groups : ∀ g, caps.get? g = caps.groups[g % 2 ^ 63]?.join
  spans_eq_groups : caps.spans = caps.groups.map (·.map Match.toSpan)
  namedGroups_eq : caps.namedGroups =
    (caps.groupNames.toList.zip caps.groups).filterMap fun (name, m) => name.map (·, m)

/-- The whole match does not begin before the search. -/
theorem WellFormed.offset_le_start {re : Regex} {hay : Haystack} {offset : Nat} {m : Match}
    (h : caps.WellFormed re hay offset) (hm : caps.get? 0 = some m) : offset ≤ m.start := by
  obtain ⟨first, last, hfirst, -, hle, -⟩ := h.whole
  obtain ⟨s, hs, rfl⟩ := Option.map_eq_some_iff.mp hm
  obtain ⟨hstart, -⟩ := Span.ofSlots?_eq_some.mp hs
  rw [firstSlot_zero, Array.getD_eq_getD_getElem?, hfirst, Option.getD_some,
    Option.some.injEq] at hstart
  exact hstart ▸ hle

end Captures

/-! ## The searches of an expression -/

namespace Regex

variable {re : Regex} {hay : Haystack} {start i j : Cursor} {slots : Slots} {offset : Nat}

theorem span?_capturesOf (hsize : slots.size = re.program.slotCount) (g : Nat) :
    (re.capturesOf hay slots).span? g =
      Span.ofSlots? (slots.getD (2 * (g % 2 ^ 63)) none)
        (slots.getD (2 * (g % 2 ^ 63) + 1) none) := by
  unfold capturesOf Captures.span?
  rw [Slots.resize_of_size_eq hsize, Captures.firstSlot_eq]

/-- A pattern has no more groups than there are numbers for. -/
theorem groupCount_le {pattern : String} {options : Options} (h : build pattern options = .ok re) :
    re.groupCount ≤ 2 ^ 63 := by
  obtain ⟨tree, hparse, hcompile⟩ := exists_parse_of_build h
  obtain ⟨exit, hc, -⟩ := Program.exists_compiled hparse hcompile
  have hnames : re.program.groupNames.size ≤ Pattern.mostGroups + 1 := by
    rw [hc.groupNames]
    exact (Pattern.listed_of_parse hparse).size_le
  exact Nat.le_trans hnames (by decide)

/-- Slots that describe a match make captures that hang together. -/
theorem capturesOf_wellFormed (hslots : slots.Describes re.program.slotCount i j)
    (hgroups : 2 ≤ re.program.slotCount) (hfew : re.groupCount ≤ 2 ^ 63) (hi : i ∈ hay.cursors)
    (hj : j ∈ i.onward) (hoffset : offset ≤ i.offset) :
    (re.capturesOf hay slots).WellFormed re hay offset := by
  have hresize : (re.capturesOf hay slots).slots = slots := Slots.resize_of_size_eq hslots.size
  have hsize : (re.capturesOf hay slots).slots.size = 2 * (re.capturesOf hay slots).size :=
    (congrArg Array.size hresize).trans hslots.size
  have hmem : ∀ a ∈ i.onward, a ∈ hay.cursors := fun a ha => Cursor.mem_onward_trans hi ha
  refine ⟨rfl, rfl, hsize, ⟨i.offset, j.offset, ?_, ?_, hoffset, Cursor.offset_le_of_mem_onward hj,
    Haystack.offset_le_size (hmem j hj), ?_⟩, ?_, by simp [Captures.groups],
    Captures.get?_eq_groups hsize, Captures.spans_eq_groups hsize hfew,
    Captures.namedGroups_eq _⟩
  · rw [hresize]
    exact (hslots.whole hgroups).start
  · rw [hresize]
    exact (hslots.whole hgroups).stop
  · intro g hg
    rw [hresize]
    rcases hslots.groups g (by rw [hresize] at hsize; omega) with hnone | ⟨a, ha, b, hb, hjb, h⟩
    · exact Or.inl hnone
    · exact Or.inr ⟨a.offset, b.offset, h.start, h.stop, ⟨a, hmem a ha, rfl⟩,
        ⟨b, Cursor.mem_onward_trans (hmem a ha) hb, rfl⟩, Cursor.offset_le_of_mem_onward ha,
        Cursor.offset_le_of_mem_onward hb, Cursor.offset_le_of_mem_onward hjb⟩
  · intro g m hm
    obtain ⟨s, hs, rfl⟩ := Option.map_eq_some_iff.mp hm
    rw [span?_capturesOf hslots.size] at hs
    obtain ⟨a, ha, b, hb, -, rfl⟩ := hslots.groups.exists_of_span hs
    exact Haystack.matchAt_standsIn (hmem a ha) hb

/-- A place where a search can begin is the one that was asked for, or lies behind it. -/
theorem offset_le_of_mem_startPlaces {input : Input} (h : i ∈ Program.startPlaces input) :
    input.start.offset ≤ i.offset :=
  Cursor.offset_le_of_mem_onward (Program.mem_onward_of_mem_startPlaces h)

theorem offset_eq_of_cursorAt (h : hay.cursorAt offset = .ok (some start)) :
    start.offset = offset := by
  unfold Haystack.cursorAt at h
  split at h
  · simp at h
  · dsimp only at h
    split at h
    · next heq =>
      obtain rfl := Option.some.inj (Except.ok.inj h)
      exact heq
    · simp at h

/-- Captures that a search gives are those of the slots that it leaves behind. -/
theorem exists_slots_of_search {request : Request} {cache cache' : Cache} {caps : Captures}
    (h : re.search request cache = .ok (.ok (some caps), cache')) :
    ∃ start, request.hay.cursorAt request.start = .ok (some start) ∧
      re.program.search ⟨request.hay, start, request.anchored, request.budget⟩
        re.program.slotCount cache = (.ok true, cache') ∧
      caps = re.capturesOf request.hay cache'.slots := by
  unfold search at h
  cases hcursor : request.hay.cursorAt request.start with
  | error e =>
    rw [hcursor] at h
    simp [Except.map] at h
  | ok place =>
    rw [hcursor] at h
    cases place with
    | none => simp [Except.map] at h
    | some start =>
      refine ⟨start, rfl, ?_⟩
      simp only [Except.map, Except.ok.injEq] at h
      split at h
      · next cache'' heq =>
        obtain ⟨hcaps, rfl⟩ := Prod.mk.inj h
        rw [Except.ok.injEq, Option.some.injEq] at hcaps
        exact ⟨heq, hcaps.symm⟩
      · simp at h
      · simp at h

theorem exists_slots_of_capturesFrom {caps : Captures}
    (h : re.capturesFrom hay start = some caps) :
    ∃ cache', re.program.search { hay, start } re.program.slotCount re.createCache =
        (.ok true, cache') ∧ caps = re.capturesOf hay cache'.slots := by
  unfold capturesFrom searchSlots at h
  split at h
  · next cache' heq =>
    refine ⟨cache', ?_, (Option.some.inj h).symm⟩
    split at heq
    · next found cache'' hsearch =>
      obtain ⟨rfl, rfl⟩ := Prod.mk.inj heq
      exact hsearch
    · simp at heq
  · simp at h

/-- **Captures hang together.** Whatever the settings of a search, if it finds a match, then group 0
is the whole match and does not begin before the search; each other group takes no part or lies
within the match; all bounds are boundaries of the text, in order, so that what a group matches can
be cut out of the text; and the ways to ask for a group agree. What is found without groups can be
cut out of the text as well. -/
theorem captures_wellFormed {pattern : String} {options : Options}
    (h : build pattern options = .ok re) (hay : Haystack) :
    (∀ offset anchored budget cache caps cache',
      re.search { hay, start := offset, anchored, budget } cache = .ok (.ok (some caps), cache') →
        caps.WellFormed re hay offset) ∧
    ∀ start ∈ hay.cursors,
      (∀ caps, re.capturesFrom hay start = some caps → caps.WellFormed re hay start.offset) ∧
      ∀ m, re.findFrom hay start = some m → start.offset ≤ m.start ∧ m.StandsIn hay := by
  obtain ⟨tree, exit, hc, hw, hgroups⟩ := exists_compiled_of_build h
  have hfew := groupCount_le h
  refine ⟨?_, ?_⟩
  · intro offset anchored budget cache caps cache' hs
    obtain ⟨start, hcursor, hsearch, rfl⟩ := exists_slots_of_search hs
    have hstart := mem_cursors_of_cursorAt hcursor
    obtain ⟨i, hi, j, hj, hslots⟩ := hc.describes_of_search hw hstart hsearch
    refine capturesOf_wellFormed hslots hgroups hfew ?_ hj ?_
    · exact Cursor.mem_onward_trans hstart (Program.mem_onward_of_mem_startPlaces hi)
    · have hoffset : start.offset = offset := offset_eq_of_cursorAt hcursor
      rw [← hoffset]
      exact offset_le_of_mem_startPlaces hi
  · intro start hstart
    have hcaptures : ∀ caps, re.capturesFrom hay start = some caps →
        caps.WellFormed re hay start.offset := by
      intro caps hcaps
      obtain ⟨cache', hsearch, rfl⟩ := exists_slots_of_capturesFrom hcaps
      obtain ⟨i, hi, j, hj, hslots⟩ := hc.describes_of_search hw hstart hsearch
      exact capturesOf_wellFormed hslots hgroups hfew (Cursor.mem_onward_trans hstart hi) hj
        (Cursor.offset_le_of_mem_onward hi)
    refine ⟨hcaptures, ?_⟩
    intro m hm
    obtain ⟨-, -, hfind, -⟩ := searches_agree_from hc hw hgroups hstart
    obtain ⟨caps, hcaps, hget⟩ := Option.bind_eq_some_iff.mp (hfind.symm.trans hm)
    exact ⟨(hcaptures caps hcaps).offset_le_start hget, (hcaptures caps hcaps).standsIn 0 m hget⟩

/-- A group that takes no part in the match, and one that lies within it. -/
theorem captures_wellFormed_alternation : ∃ re caps cache', build "(a)|(b)c" = .ok re ∧
    re.search { hay := .ofString "xbc", start := 1 } {} = .ok (.ok (some caps), cache') ∧
    caps.slots = #[some 1, some 3, none, none, some 1, some 2] ∧
    caps.WellFormed re (.ofString "xbc") 1 := by
  obtain ⟨tree, start, hparse, hcursor, htrail, program, hcompile, hwidth⟩ : ∃ tree start,
      Pattern.parse "(a)|(b)c" {} = .ok tree ∧
      (Haystack.ofString "xbc").cursorAt 1 = .ok (some start) ∧
      tree.firstTrail 6 start = some #[some 1, some 3, none, none, some 1, some 2] ∧
      ∃ program, Program.compile Program.defaultLimit tree = .ok program ∧
        program.slotCount = 6 := by
    with_unfolding_all exact ⟨_, _, rfl, rfl, rfl, _, rfl, rfl⟩
  have hbuild : build "(a)|(b)c" = .ok ⟨"(a)|(b)c", program⟩ := by
    unfold build
    rw [hparse]
    dsimp only
    rw [hcompile]
  obtain ⟨exit, hc, hw⟩ := Program.exists_compiled hparse hcompile
  have hfinds := (hc.findsFirst hw (mem_cursors_of_cursorAt hcursor)
    (hc.firstTrail_cases hw 6)).finds htrail
  obtain ⟨cache', hsearch, hslots⟩ := hfinds.exists_search {}
  have hfound : (⟨"(a)|(b)c", program⟩ : Regex).search { hay := .ofString "xbc", start := 1 } {} =
      .ok (.ok (some (capturesOf ⟨"(a)|(b)c", program⟩ (.ofString "xbc") cache'.slots)), cache') := by
    unfold search
    rw [hcursor]
    simp only [Except.map, hwidth]
    rw [hsearch]
    rfl
  refine ⟨_, _, cache', hbuild, hfound, ?_,
    (captures_wellFormed hbuild (.ofString "xbc")).1 1 false none {} _ cache' hfound⟩
  rw [hslots]
  exact Slots.resize_of_size_eq hwidth.symm

end Regex

end LinearRegex
