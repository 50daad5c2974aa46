import LinearRegex.Proofs.Regex.Remaining
import LinearRegex.Proofs.Regex.Yields

/-!
# All matches

What is given by going through the matches in a text, for the matches alone and with their groups.
Both take the same steps, since what is found does not depend on how many slots are recorded.

Main statement: `Regex.enumerates_findAll`.
-/

namespace LinearRegex

namespace Regex

variable {re : Regex} {hay : Haystack} {q i j : Cursor} {slots : Slots}

/-! ## Searches that are anchored -/

/-- What the anchored search at an offset finds, whatever cache it is given. -/
def FindsAt (re : Regex) (hay : Haystack) (offset : Nat) (found : Option Captures) : Prop :=
  ∀ cache, (re.search { hay, start := offset, anchored := true } cache).map Prod.fst =
    .ok (.ok found)

theorem cursorAt_offset (hq : q ∈ hay.cursors) : hay.cursorAt q.offset = .ok (some q) := by
  have hle := Haystack.offset_le_size hq
  have hcursor : hay.start.advanceTo q.offset = q := Cursor.advanceTo_offset hq
  unfold Haystack.cursorAt
  rw [if_neg (Nat.not_lt.mpr hle), hcursor]
  exact if_pos rfl

theorem findsAt_none (hq : q ∈ hay.cursors) (h : re.program.FindsNoneAt hay q) :
    re.FindsAt hay q.offset none :=
  search_of_finds (h _) rfl (cursorAt_offset hq)

theorem findsAt_some (hq : q ∈ hay.cursors)
    (h : re.program.Finds { hay, start := q, anchored := true } re.program.slotCount (some slots)) :
    re.FindsAt hay q.offset (some (re.capturesOf hay slots)) :=
  search_of_finds h rfl (cursorAt_offset hq)

theorem get?_zero_capturesOf (hslots : slots.Describes re.program.slotCount i j)
    (hgroups : 2 ≤ re.program.slotCount) :
    (re.capturesOf hay slots).get? 0 = some (hay.matchAt ⟨i.offset, j.offset⟩) :=
  get?_capturesOf re hay hslots.size (hslots.whole hgroups).start (hslots.whole hgroups).stop

/-- The match that begins at a place, as the anchored search there tells it. -/
theorem exists_findsAt (hgroups : 2 ≤ re.program.slotCount) (hi : i ∈ hay.cursors)
    (h : re.program.FindsTo hay i j) : ∃ caps, re.FindsAt hay i.offset (some caps) ∧
      caps.get? 0 = some (hay.matchAt ⟨i.offset, j.offset⟩) := by
  obtain ⟨slots, hfinds, hdescribes⟩ := h re.program.slotCount
  exact ⟨_, findsAt_some hi hfinds, get?_zero_capturesOf hdescribes hgroups⟩

end Regex

namespace Matches

variable {re : Regex} {hay : Haystack} {width : Nat} {cache cache' : Cache} {next : Option Cursor}
variable {last : Option Nat} {seen : List Span} {start i j : Cursor} {l : List (Cursor × Cursor)}
variable {m : Matches}

/-! ## One step -/

theorem findNext_nothing (hs : re.searchSlots hay start width cache = (false, cache')) :
    findNext ⟨re, hay, width, cache, next, last, seen⟩ start =
      (none, ⟨re, hay, width, cache', none, last, seen⟩) := by
  rw [findNext, hs]

/-- Behind a match that is not empty the next search starts right at its end. -/
theorem findNext_stretch (hs : re.searchSlots hay start width cache = (true, cache'))
    (hspan : Span.ofSlots? (cache'.slots.getD 0 none) (cache'.slots.getD 1 none) =
      some ⟨i.offset, j.offset⟩) (hj : j ∈ start.onward) (hne : i.offset ≠ j.offset) :
    findNext ⟨re, hay, width, cache, next, last, seen⟩ start =
      (some ⟨i.offset, j.offset⟩,
        ⟨re, hay, width, cache', some j, some j.offset, ⟨i.offset, j.offset⟩ :: seen⟩) := by
  have hempty : Span.isEmpty ⟨i.offset, j.offset⟩ = false := by simpa [Span.isEmpty] using hne
  rw [findNext, hs]
  dsimp only
  rw [hspan]
  simp only [hempty, Cursor.advanceTo_offset hj, Bool.false_eq_true, ↓reduceIte]

/-- Behind an empty match it starts one character later, and the match is passed over if the last one
ended there. -/
theorem findNext_empty (hs : re.searchSlots hay start width cache = (true, cache'))
    (hspan : Span.ofSlots? (cache'.slots.getD 0 none) (cache'.slots.getD 1 none) =
      some ⟨i.offset, i.offset⟩) (hi : i ∈ start.onward) :
    findNext ⟨re, hay, width, cache, next, last, seen⟩ start =
      if last = some i.offset then
        advance ⟨re, hay, width, cache', i.next?, last, ⟨i.offset, i.offset⟩ :: seen⟩
      else
        (some ⟨i.offset, i.offset⟩,
          ⟨re, hay, width, cache', i.next?, some i.offset, ⟨i.offset, i.offset⟩ :: seen⟩) := by
  have hempty : Span.isEmpty ⟨i.offset, i.offset⟩ = true := by simp [Span.isEmpty]
  rw [findNext, hs]
  dsimp only
  rw [hspan]
  simp only [hempty, Cursor.advanceTo_offset hi, ↓reduceIte]
  split
  · next hr =>
    rw [Cursor.advanceTo_offset hi] at hr
    rw [Cursor.next?_eq_none hr]
    rfl
  · next hr =>
    rw [Cursor.advanceTo_offset hi] at hr
    rw [Cursor.next?_eq_some (hr ▸ List.cons_ne_nil _ _)]
    rfl

/-- A state from which these matches remain. -/
structure Holds (m : Matches) (re : Regex) (hay : Haystack) (width : Nat)
    (l : List (Cursor × Cursor)) : Prop where
  re_eq : m.re = re
  hay_eq : m.hay = hay
  width_eq : m.width = width
  remaining : re.program.Remaining hay m.next m.lastStop l

theorem holds_ofWidth (h : re.program.Remaining hay (some hay.start) none l) (width : Nat) :
    (ofWidth re hay width).Holds re hay width l := ⟨rfl, rfl, rfl, h⟩

/-- A step from a state from which some matches remain: the first of them is found, with the slots
that an anchored search records there, and leads to where the others remain. -/
def Gives (re : Regex) (hay : Haystack) (width : Nat) (step : Option Span × Matches) :
    List (Cursor × Cursor) → Prop
  | [] => step.1 = none ∧ step.2.Holds re hay width []
  | x :: l => step.1 = some ⟨x.1.offset, x.2.offset⟩ ∧ step.2.Holds re hay width l ∧
    re.program.Finds { hay, start := x.1, anchored := true } width (some step.2.cache.slots) ∧
    step.2.cache.slots.Describes width x.1 x.2

theorem exists_searchSlots (h : re.program.FindsMatch hay start i j) (hwidth : 2 ≤ width)
    (cache : Cache) : ∃ cache', re.searchSlots hay start width cache = (true, cache') ∧
      Span.ofSlots? (cache'.slots.getD 0 none) (cache'.slots.getD 1 none) =
        some ⟨i.offset, j.offset⟩ ∧
      re.program.Finds { hay, start := i, anchored := true } width (some cache'.slots) ∧
      cache'.slots.Describes width i j := by
  obtain ⟨slots, hfinds, hanchored, hdescribes⟩ := h.finds width
  obtain ⟨cache', hs, hslots⟩ := Regex.searchSlots_of_finds hfinds cache
  obtain rfl := hslots slots rfl
  have hstart : cache'.slots[0]? = some (some i.offset) := (hdescribes.whole hwidth).start
  have hstop : cache'.slots[1]? = some (some j.offset) := (hdescribes.whole hwidth).stop
  refine ⟨cache', hs, ?_, hanchored, hdescribes⟩
  rw [Array.getD_eq_getD_getElem?, Array.getD_eq_getD_getElem?, hstart, hstop]
  rfl

/-- **One step finds the first match that remains**, passing over empty ones where it must. -/
theorem gives_advance (h : m.Holds re hay width l) (hwidth : 2 ≤ width) :
    Gives re hay width m.advance l := by
  obtain ⟨re', hay', width', cache, next, last, seen⟩ := m
  obtain ⟨rfl, rfl, rfl, hremaining⟩ := h
  dsimp only at hremaining hwidth ⊢
  induction hremaining generalizing cache seen with
  | nil last => exact ⟨rfl, rfl, rfl, rfl, .nil last⟩
  | nothing last h =>
    obtain ⟨cache', hs, -⟩ := Regex.searchSlots_of_finds (h.finds width') cache
    rw [advance, findNext_nothing hs]
    exact ⟨rfl, rfl, rfl, rfl, .nil last⟩
  | skip h hlast _ ih =>
    obtain ⟨cache', hs, hspan, -⟩ := exists_searchSlots h hwidth cache
    rw [advance, findNext_empty hs hspan h.start_mem, if_pos hlast]
    exact ih _ _
  | empty h hlast rest _ =>
    obtain ⟨cache', hs, hspan, hanchored, hdescribes⟩ := exists_searchSlots h hwidth cache
    rw [advance, findNext_empty hs hspan h.start_mem, if_neg hlast]
    exact ⟨rfl, ⟨rfl, rfl, rfl, rest⟩, hanchored, hdescribes⟩
  | stretch h hne rest _ =>
    obtain ⟨cache', hs, hspan, hanchored, hdescribes⟩ := exists_searchSlots h hwidth cache
    have hoffset := Nat.ne_of_lt (Cursor.offset_lt_of_mem_onward h.stop_mem hne)
    rw [advance, findNext_stretch hs hspan (Cursor.mem_onward_trans h.start_mem h.stop_mem) hoffset]
    exact ⟨rfl, ⟨rfl, rfl, rfl, rest⟩, hanchored, hdescribes⟩

/-! ## All steps -/

theorem yields_nextMatch (h : m.Holds re hay width l) (hwidth : 2 ≤ width) :
    Yields nextMatch m (l.map fun x => hay.matchAt ⟨x.1.offset, x.2.offset⟩) := by
  induction l generalizing m with
  | nil =>
    refine yields_nil_of_invariant (fun m => m.Holds re hay width []) ?_ h
    intro m h
    obtain ⟨hnone, hrest⟩ := gives_advance h hwidth
    exact ⟨congrArg (Option.map m.advance.2.hay.matchAt) hnone, hrest⟩
  | cons x l ih =>
    obtain ⟨hspan, hrest, -⟩ := gives_advance h hwidth
    refine .cons ?_ (ih hrest)
    rw [← hrest.hay_eq]
    exact congrArg (Option.map m.advance.2.hay.matchAt) hspan

/-- With their groups the same matches are given, and the groups are those that the anchored searches
at their places find. -/
theorem exists_yields_nextCaptures (h : m.Holds re hay width l)
    (hwidth : width = re.program.slotCount) (hgroups : 2 ≤ re.program.slotCount) :
    ∃ caps, Yields nextCaptures m caps ∧
      List.Forall₂ (fun x c => re.FindsAt hay x.1.offset (some c) ∧
        c.get? 0 = some (hay.matchAt ⟨x.1.offset, x.2.offset⟩)) l caps := by
  subst hwidth
  induction l generalizing m with
  | nil =>
    refine ⟨[], yields_nil_of_invariant (fun m => m.Holds re hay _ []) ?_ h, .nil⟩
    intro m h
    obtain ⟨hnone, hrest⟩ := gives_advance h hgroups
    exact ⟨congrArg (Option.map _) hnone, hrest⟩
  | cons x l ih =>
    obtain ⟨hspan, hrest, hanchored, hdescribes⟩ := gives_advance h hgroups
    obtain ⟨caps, hyields, hcaps⟩ := ih hrest
    have hsome : m.nextCaptures.1 =
        some (re.capturesOf hay m.advance.2.cache.slots) := by
      have hmap : m.nextCaptures.1 = m.advance.1.map fun _ =>
        m.advance.2.re.capturesOf m.advance.2.hay m.advance.2.cache.slots := rfl
      rw [hmap, hspan, hrest.re_eq, hrest.hay_eq]
      rfl
    obtain ⟨hx, -⟩ := h.remaining.bounds_of_mem List.mem_cons_self
    exact ⟨_, .cons hsome hyields, .cons ⟨Regex.findsAt_some hx hanchored,
      Regex.get?_zero_capturesOf hdescribes hgroups⟩ hcaps⟩

end Matches

namespace Regex

variable {re : Regex} {hay : Haystack} {start i j : Cursor}

/-! ## The first match -/

theorem findFrom_of_findsNothing (h : re.program.FindsNothing hay start) :
    re.findFrom hay start = none := findFrom_of_finds (h.finds 2) rfl

theorem findFrom_of_findsMatch (h : re.program.FindsMatch hay start i j) :
    re.findFrom hay start = some (hay.matchAt ⟨i.offset, j.offset⟩) := by
  obtain ⟨cache', hs, hspan, -⟩ := Matches.exists_searchSlots h (Nat.le_refl 2) re.createCache
  unfold findFrom
  rw [hs]
  dsimp only
  rw [hspan]
  rfl

/-! ## All matches in a text -/

/-- A list of matches in a text, as they follow one another from left to right with none left out:
each is the one that begins at its place, it ends behind the one before, and it begins there or
later; if it is empty, it begins later. -/
structure Enumerates (re : Regex) (hay : Haystack) (ms : List Match) : Prop where
  found : ∀ m ∈ ms, ∃ caps, re.FindsAt hay m.start (some caps) ∧ caps.get? 0 = some m
  ordered : ms.IsChain fun a b => a.stop ≤ b.start ∧ a.stop < b.stop ∧
    (b.start = b.stop → a.stop ≠ b.start)
  none_before : ∀ q ∈ hay.cursors, (∀ m ∈ ms.head?, q.offset < m.start) →
    re.FindsAt hay q.offset none
  none_between : ms.IsChain fun a b => ∀ q ∈ hay.cursors, a.stop < q.offset → q.offset < b.start →
    re.FindsAt hay q.offset none
  none_behind : ∀ m ∈ ms.getLast?, ∀ q ∈ hay.cursors, m.stop < q.offset →
    re.FindsAt hay q.offset none
  /-- Right where a match that is not empty ends, only an empty match is passed over. -/
  resumed : ms.IsChain fun a b => a.start < a.stop → a.stop < b.start →
    re.FindsAt hay a.stop none ∨
      ∃ caps m, re.FindsAt hay a.stop (some caps) ∧ caps.get? 0 = some m ∧ m.start = m.stop
  length_le : ms.length ≤ hay.chars.length + 1

/-- The matches that remain from the start of a text follow one another with none left out. -/
theorem enumerates_of_remaining {l : List (Cursor × Cursor)}
    (h : re.program.Remaining hay (some hay.start) none l) (hgroups : 2 ≤ re.program.slotCount) :
    re.Enumerates hay (l.map fun x => hay.matchAt ⟨x.1.offset, x.2.offset⟩) where
  found := by
    intro m hm
    obtain ⟨x, hx, rfl⟩ := List.mem_map.mp hm
    obtain ⟨hi, -, hfinds⟩ := h.bounds_of_mem hx
    exact exists_findsAt hgroups hi hfinds
  ordered := by
    refine List.isChain_map_of_isChain _ ?_ h.isChain
    intro x y hxy
    exact ⟨hxy.stop_le, hxy.stop_lt, fun hempty => Nat.ne_of_lt (hxy.lt_of_empty hempty)⟩
  none_before := by
    intro q hq hhead
    have hhead : ∀ x ∈ l.head?, q.offset < x.1.offset := by
      intro x hx
      exact hhead _ (by rw [List.head?_map, hx]; rfl)
    rcases h.none_before_head rfl hq hhead with hnone | ⟨hlast, -⟩
    · exact findsAt_none hq hnone
    · simp at hlast
  none_between := by
    refine List.isChain_map_of_isChain _ ?_ h.isChain
    intro x y hxy q hq hlt hbefore
    exact findsAt_none hq (hxy.none_between q hq hlt hbefore)
  none_behind := by
    intro m hm q hq hlt
    rw [List.getLast?_map] at hm
    obtain ⟨x, hx, rfl⟩ := Option.map_eq_some_iff.mp hm
    exact findsAt_none hq (h.none_behind_getLast hx hq hlt)
  resumed := by
    refine List.isChain_map_of_isChain _ ?_ h.isChain
    intro x y hxy hstretch hlt
    rcases hxy.resumed hstretch hlt with hnone | hempty
    · exact Or.inl (findsAt_none hxy.mem_cursors hnone)
    · obtain ⟨caps, hfinds, hget⟩ := exists_findsAt hgroups hxy.mem_cursors hempty
      exact Or.inr ⟨caps, _, hfinds, hget, rfl⟩
  length_le := by
    rw [List.length_map]
    exact h.length_le

theorem findAll_eq {l : List (Cursor × Cursor)}
    (h : re.program.Remaining hay (some hay.start) none l) :
    re.findAll hay = l.map fun x => hay.matchAt ⟨x.1.offset, x.2.offset⟩ := by
  have hyields : Yields Matches.nextMatch (.ofRegex re hay) _ :=
    Matches.yields_nextMatch (Matches.holds_ofWidth h 2) (Nat.le_refl 2)
  exact hyields.collect_all (by rw [List.length_map]; exact h.length_le)

/-- **All matches are found, and no others.** Going through a text gives matches from left to right,
each of them the one that begins at its place and none left out; then it gives nothing for ever.
With their groups the same matches are given, each with the groups that the anchored search at its
place finds. -/
theorem enumerates_findAll {pattern : String} {options : Options}
    (h : build pattern options = .ok re) (hay : Haystack) :
    re.Enumerates hay (re.findAll hay) ∧
    Yields Matches.nextMatch (.ofRegex re hay) (re.findAll hay) ∧
    Yields Matches.nextCaptures (.ofCaptures re hay) (re.capturesAll hay) ∧
    List.Forall₂ (fun m caps => re.FindsAt hay m.start (some caps) ∧ caps.get? 0 = some m)
      (re.findAll hay) (re.capturesAll hay) := by
  obtain ⟨tree, exit, hc, hw, hgroups⟩ := exists_compiled_of_build h
  obtain ⟨l, hl⟩ := hc.exists_remaining hw hay.start_mem_cursors none
  have hcaptures : (Matches.ofCaptures re hay).Holds re hay re.program.slotCount l :=
    Matches.holds_ofWidth hl _
  obtain ⟨caps, hyieldsCaps, hcaps⟩ := Matches.exists_yields_nextCaptures hcaptures rfl hgroups
  have hcapturesAll : re.capturesAll hay = caps :=
    hyieldsCaps.collect_all (hcaps.length_eq ▸ hl.length_le)
  rw [findAll_eq hl, hcapturesAll]
  refine ⟨enumerates_of_remaining hl hgroups,
    Matches.yields_nextMatch (Matches.holds_ofWidth hl 2) (Nat.le_refl 2), hyieldsCaps, ?_⟩
  rw [List.forall₂_map_left_iff]
  exact hcaps.imp fun _ _ hx => hx

/-- An empty match, one that is not empty, and another empty one, for which the empty match where the
second ends is passed over. -/
theorem enumerates_findAll_star : ∃ re, build "a*" = .ok re ∧
    re.findAll (.ofString "baac") = [⟨⟨0, 0⟩, ""⟩, ⟨⟨1, 3⟩, "aa"⟩, ⟨⟨4, 4⟩, ""⟩] ∧
    re.Enumerates (.ofString "baac") [⟨⟨0, 0⟩, ""⟩, ⟨⟨1, 3⟩, "aa"⟩, ⟨⟨4, 4⟩, ""⟩] := by
  obtain ⟨re, hbuild, hfindAll⟩ : ∃ re, build "a*" = .ok re ∧
      re.findAll (.ofString "baac") = [⟨⟨0, 0⟩, ""⟩, ⟨⟨1, 3⟩, "aa"⟩, ⟨⟨4, 4⟩, ""⟩] := by
    with_unfolding_all exact ⟨_, rfl, by decide +kernel⟩
  exact ⟨re, hbuild, hfindAll, hfindAll ▸ (enumerates_findAll hbuild (.ofString "baac")).1⟩

end Regex

end LinearRegex
