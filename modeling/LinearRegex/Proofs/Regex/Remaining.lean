import LinearRegex.Proofs.Regex.Captures
import LinearRegex.Regex.Matches
import Mathlib.Data.List.Chain
import Mathlib.Data.List.Nodup

/-!
# The matches that remain

The matches in a text from a place on, when the last one before ended at a given offset. Each is
found by a search from where the one before has led to; an empty match right where that one ended
is passed over.

Main statements: `Program.Compiled.exists_remaining`, that the matches from a place on can be
listed; `Program.Remaining.isChain`, that each of them follows the one before with nothing left out
in between; and `Program.Remaining.length_le` for their number.
-/

namespace LinearRegex

/-- The next boundary, unless the text ends here. -/
def Cursor.next? (cur : Cursor) : Option Cursor := if cur.atEnd then none else some cur.next

theorem Cursor.next?_eq_none {cur : Cursor} (h : cur.rest = []) : cur.next? = none := by
  simp [next?, atEnd, h]

theorem Cursor.next?_eq_some {cur : Cursor} (h : cur.rest ≠ []) : cur.next? = some cur.next := by
  simp [next?, atEnd, h]

namespace Program

/-! ## What one search finds -/

/-- No match begins at a place. -/
def FindsNoneAt (p : Program) (hay : Haystack) (q : Cursor) : Prop :=
  ∀ width, p.Finds { hay, start := q, anchored := true } width none

/-- The match that begins at a place ends at another. -/
def FindsTo (p : Program) (hay : Haystack) (i j : Cursor) : Prop :=
  ∀ width, ∃ slots, p.Finds { hay, start := i, anchored := true } width (some slots) ∧
    slots.Describes width i j

/-- A search from a place finds the match between two places: it is the one that begins at the first
of them, and none begins before. -/
structure FindsMatch (p : Program) (hay : Haystack) (start i j : Cursor) : Prop where
  mem_cursors : i ∈ hay.cursors
  start_mem : i ∈ start.onward
  stop_mem : j ∈ i.onward
  none_before : ∀ q ∈ start.onward, q.offset < i.offset → p.FindsNoneAt hay q
  finds : ∀ width, ∃ slots, p.Finds { hay, start } width (some slots) ∧
    p.Finds { hay, start := i, anchored := true } width (some slots) ∧ slots.Describes width i j

/-- A search from a place finds nothing, and no match begins behind the place. -/
structure FindsNothing (p : Program) (hay : Haystack) (start : Cursor) : Prop where
  finds : ∀ width, p.Finds { hay, start } width none
  none_behind : ∀ q ∈ start.onward, p.FindsNoneAt hay q

variable {p : Program} {hay : Haystack} {start i j : Cursor}

theorem FindsMatch.findsTo (h : p.FindsMatch hay start i j) : p.FindsTo hay i j := by
  intro width
  obtain ⟨slots, -, hfinds, hdescribes⟩ := h.finds width
  exact ⟨slots, hfinds, hdescribes⟩

theorem FindsMatch.stop_mem_cursors (h : p.FindsMatch hay start i j) : j ∈ hay.cursors :=
  Cursor.mem_onward_trans h.mem_cursors h.stop_mem

theorem findsNoneAt_of_forall_not (hq : i ∈ hay.cursors) (h : ∀ r, ¬ p.Accepts ⟨0, i⟩ r) :
    p.FindsNoneAt hay i := by
  intro width
  refine finds_none rfl (by simp) hq ?_
  rw [startPlaces_anchored rfl]
  simpa using h

theorem Compiled.exists_findsMatch {pattern : Pattern} {exit : Nat} (hc : p.Compiled pattern exit)
    (hw : pattern.node.WellFormed) (hstart : start ∈ hay.cursors) :
    p.FindsNothing hay start ∨ ∃ i j, p.FindsMatch hay start i j := by
  have hsound : p.PrefilterSound hay := hc.prefilterSound hw
  have hmem : ∀ q ∈ start.onward, q ∈ hay.cursors := fun q hq => Cursor.mem_onward_trans hstart hq
  obtain ⟨-, -, -, ⟨-, hnone⟩ | ⟨-, i, hi, hfirst, r, hr, -⟩⟩ :=
    p.search_startPlaces { hay, start } rfl (fun _ => hsound) hstart 0 {}
  · exact Or.inl ⟨fun width => finds_none rfl (fun _ => hsound) hstart hnone,
      fun q hq => findsNoneAt_of_forall_not (hmem q hq) (hnone q hq)⟩
  · obtain ⟨j, hj, hdescribes⟩ := hc.exists_describes hw hr
    refine Or.inr ⟨i, j, hmem i hi, hi, hj, ?_, ?_⟩
    · intro q hq hlt
      exact findsNoneAt_of_forall_not (hmem q hq) (hfirst q hq hlt)
    · intro width
      refine ⟨_, finds_some rfl (fun _ => hsound) hstart hi hfirst hr,
        finds_some rfl (by simp) (hmem i hi) ?_ ?_ hr, hdescribes width⟩
      · rw [startPlaces_anchored rfl]
        exact List.mem_singleton_self i
      · rw [startPlaces_anchored rfl]
        intro x hx hlt
        rw [List.mem_singleton.mp hx] at hlt
        exact absurd hlt (Nat.lt_irrefl _)

namespace Compiled

variable {pattern : Pattern} {exit : Nat} (hc : p.Compiled pattern exit)
  (hw : pattern.node.WellFormed)
include hc hw

/-- Where an anchored search finds nothing, the pattern does not match. -/
theorem not_matches_of_findsNoneAt (hi : i ∈ hay.cursors) (h : p.FindsNoneAt hay i) :
    ¬ pattern.node.Matches i j := by
  intro hj
  obtain ⟨r, hr⟩ := (hc.exists_accepts_iff hw).mpr ⟨j, hj⟩
  obtain ⟨found, cache', heq, hfound⟩ :=
    p.search_startPlaces { hay, start := i, anchored := true } rfl (by simp) hi 0 {}
  obtain ⟨cache'', hnone, -⟩ := h 0 {}
  have hfalse := Except.ok.inj (congrArg Prod.fst (heq.symm.trans hnone))
  rcases hfound with ⟨-, hno⟩ | ⟨htrue, -⟩
  · exact hno i (by rw [startPlaces_anchored rfl]; exact List.mem_singleton_self i) r hr
  · rw [htrue] at hfalse
    simp at hfalse

/-- What an anchored search finds is a match of the pattern. -/
theorem matches_of_findsTo (hi : i ∈ hay.cursors) (hj : j ∈ i.onward) (h : p.FindsTo hay i j) :
    pattern.node.Matches i j := by
  obtain ⟨slots, hfinds, hdescribes⟩ := h 2
  obtain ⟨found, cache', heq, hfound⟩ :=
    p.search_startPlaces { hay, start := i, anchored := true } rfl (by simp) hi 2 {}
  obtain ⟨cache'', hsome, hslots⟩ := hfinds {}
  obtain ⟨htrue, hcache⟩ := Prod.mk.inj (heq.symm.trans hsome)
  rcases hfound with ⟨hfalse, -⟩ | ⟨-, q, hq, -, r, hr, hrecorded⟩
  · rw [hfalse] at htrue
    simp at htrue
  · rw [startPlaces_anchored rfl, List.mem_singleton] at hq
    subst hq
    obtain ⟨j', hj', hbounds⟩ := hc.matches_of_accepts hw hr.accepts
    obtain ⟨-, hstop⟩ := hbounds (.replicate 2 none) (by simp)
    have hsame := (hdescribes.whole (Nat.le_refl 2)).stop
    rw [← hslots slots rfl, ← hcache, hrecorded, hstop] at hsame
    have hoffset : j'.offset = j.offset := by simpa using hsame
    rw [← Cursor.eq_of_offset_eq hj'.mem_onward hj hoffset]
    exact hj'

end Compiled

/-! ## One match after the other -/

/-- The matches from a place on, if there is one to go on from, told by where they begin and end.
The last one before has ended at the given offset, if there is one. -/
inductive Remaining (p : Program) (hay : Haystack) :
    Option Cursor → Option Nat → List (Cursor × Cursor) → Prop
  | nil (last : Option Nat) : Remaining p hay none last []
  | nothing {start : Cursor} (last : Option Nat) (h : p.FindsNothing hay start) :
    Remaining p hay (some start) last []
  /-- An empty match where the last one ended is passed over. -/
  | skip {start i : Cursor} {last : Option Nat} {l : List (Cursor × Cursor)}
    (h : p.FindsMatch hay start i i) (hlast : last = some i.offset)
    (rest : Remaining p hay i.next? last l) : Remaining p hay (some start) last l
  /-- Behind any other empty match the next one begins at least a character later. -/
  | empty {start i : Cursor} {last : Option Nat} {l : List (Cursor × Cursor)}
    (h : p.FindsMatch hay start i i) (hlast : last ≠ some i.offset)
    (rest : Remaining p hay i.next? (some i.offset) l) :
    Remaining p hay (some start) last ((i, i) :: l)
  | stretch {start i j : Cursor} {last : Option Nat} {l : List (Cursor × Cursor)}
    (h : p.FindsMatch hay start i j) (hne : i ≠ j)
    (rest : Remaining p hay (some j) (some j.offset) l) :
    Remaining p hay (some start) last ((i, j) :: l)

/-- **The matches from a place on can be listed.** -/
theorem Compiled.exists_remaining {pattern : Pattern} {exit : Nat} (hc : p.Compiled pattern exit)
    (hw : pattern.node.WellFormed) (hstart : start ∈ hay.cursors) (last : Option Nat) :
    ∃ l, p.Remaining hay (some start) last l := by
  -- Every match, empty or not, leads to a place with less text behind it.
  induction hlen : start.rest.length using Nat.strongRecOn generalizing start last with
  | ind len ih =>
    subst hlen
    have hnext : ∀ i ∈ start.onward, ∀ last, ∃ l, p.Remaining hay i.next? last l := by
      intro i hi last
      by_cases hrest : i.rest = []
      · rw [Cursor.next?_eq_none hrest]
        exact ⟨[], .nil last⟩
      · rw [Cursor.next?_eq_some hrest]
        refine ih _ ?_ (Haystack.next_mem_cursors (Cursor.mem_onward_trans hstart hi)) last rfl
        obtain ⟨c, cs, h⟩ := List.exists_cons_of_ne_nil hrest
        exact Nat.lt_of_lt_of_le (Matches.next_rest_length h)
          (Cursor.rest_length_le_of_mem_onward hi)
    rcases hc.exists_findsMatch hw hstart with hnothing | ⟨i, j, hmatch⟩
    · exact ⟨[], .nothing last hnothing⟩
    · by_cases hne : i = j
      · subst hne
        by_cases hlast : last = some i.offset
        · obtain ⟨l, hl⟩ := hnext i hmatch.start_mem last
          exact ⟨l, .skip hmatch hlast hl⟩
        · obtain ⟨l, hl⟩ := hnext i hmatch.start_mem (some i.offset)
          exact ⟨_, .empty hmatch hlast hl⟩
      · have hlt := Nat.lt_of_lt_of_le (Cursor.rest_length_lt_of_mem_onward hmatch.stop_mem hne)
          (Cursor.rest_length_le_of_mem_onward hmatch.start_mem)
        obtain ⟨l, hl⟩ := ih _ hlt hmatch.stop_mem_cursors (some j.offset) rfl
        exact ⟨_, .stretch hmatch hne hl⟩

/-! ## The first of them -/

namespace Remaining

variable {next : Option Cursor} {last : Option Nat} {l : List (Cursor × Cursor)}
variable {q : Cursor} {x y : Cursor × Cursor} {e : Nat}

/-- No match begins before the first, or else it is the empty match that is passed over. -/
theorem none_before_head (h : p.Remaining hay next last l) (hnext : next = some start)
    (hq : q ∈ start.onward) (hhead : ∀ x ∈ l.head?, q.offset < x.1.offset) :
    p.FindsNoneAt hay q ∨ (last = some q.offset ∧ p.FindsTo hay q q) := by
  induction h generalizing start with
  | nil => simp at hnext
  | nothing last h =>
    obtain rfl := Option.some.inj hnext
    exact Or.inl (h.none_behind q hq)
  | @skip _ i _ _ h hlast _ ih =>
    obtain rfl := Option.some.inj hnext
    rcases Nat.lt_trichotomy q.offset i.offset with hlt | heq | hlt
    · exact Or.inl (h.none_before q hq hlt)
    · obtain rfl := Cursor.eq_of_offset_eq hq h.start_mem heq
      exact Or.inr ⟨hlast, h.findsTo⟩
    · have hi := (Cursor.mem_onward_iff h.start_mem).mpr ⟨hq, Nat.le_of_lt hlt⟩
      obtain ⟨hrest, hq⟩ := Cursor.mem_onward_next_of_lt hi hlt
      exact ih (Cursor.next?_eq_some hrest) hq hhead
  | empty h _ _ _ =>
    obtain rfl := Option.some.inj hnext
    exact Or.inl (h.none_before q hq (hhead _ rfl))
  | stretch h _ _ _ =>
    obtain rfl := Option.some.inj hnext
    exact Or.inl (h.none_before q hq (hhead _ rfl))

/-- The first match lies behind the place to go on from, and is not an empty one where the last one
ended. -/
theorem head_bounds (h : p.Remaining hay next last l) (hx : x ∈ l.head?) :
    ∃ start, next = some start ∧ x.1 ∈ start.onward ∧ x.2 ∈ x.1.onward ∧
      (x.1 = x.2 → last ≠ some x.1.offset) := by
  induction h with
  | nil => simp at hx
  | nothing => simp at hx
  | @skip start i _ _ h _ _ ih =>
    obtain ⟨start', hstart', hx₁, hx₂, hne⟩ := ih hx
    refine ⟨start, rfl, ?_, hx₂, hne⟩
    by_cases hrest : i.rest = []
    · rw [Cursor.next?_eq_none hrest] at hstart'
      simp at hstart'
    · rw [Cursor.next?_eq_some hrest] at hstart'
      obtain rfl := Option.some.inj hstart'
      exact Cursor.mem_onward_trans h.start_mem (Cursor.mem_onward_trans i.next_mem_onward hx₁)
  | @empty start i _ _ h hlast _ _ =>
    obtain rfl := Option.some.inj hx
    exact ⟨start, rfl, h.start_mem, h.stop_mem, fun _ => hlast⟩
  | @stretch start i j _ _ h hne _ _ =>
    obtain rfl := Option.some.inj hx
    exact ⟨start, rfl, h.start_mem, h.stop_mem, fun heq => absurd heq hne⟩

/-! ## All of them -/

end Remaining

/-- Going on from a place leaves out no boundary behind an offset. -/
structure GoesOn (hay : Haystack) (next : Option Cursor) (e : Nat) : Prop where
  le : ∀ start, next = some start → e ≤ start.offset
  covers : ∀ q ∈ hay.cursors, e < q.offset → ∃ start, next = some start ∧ q ∈ start.onward

theorem goesOn_self (hj : j ∈ hay.cursors) : GoesOn hay (some j) j.offset where
  le _ h := Option.some.inj h ▸ Nat.le_refl _
  covers _ hq hlt :=
    ⟨j, rfl, (Haystack.mem_onward_iff_of_mem_cursors hj).mpr ⟨hq, Nat.le_of_lt hlt⟩⟩

theorem goesOn_next? (hi : i ∈ hay.cursors) : GoesOn hay i.next? i.offset := by
  have hbehind : ∀ q ∈ hay.cursors, i.offset < q.offset → i.rest ≠ [] ∧ q ∈ i.next.onward := by
    intro q hq hlt
    have hq := (Haystack.mem_onward_iff_of_mem_cursors hi).mpr ⟨hq, Nat.le_of_lt hlt⟩
    exact Cursor.mem_onward_next_of_lt hq hlt
  by_cases hrest : i.rest = []
  · rw [Cursor.next?_eq_none hrest]
    exact ⟨by simp, fun q hq hlt => absurd hrest (hbehind q hq hlt).1⟩
  · rw [Cursor.next?_eq_some hrest]
    refine ⟨?_, fun q hq hlt => ⟨i.next, rfl, (hbehind q hq hlt).2⟩⟩
    rintro start ⟨⟩
    exact Cursor.offset_le_of_mem_onward i.next_mem_onward

/-- One match comes next behind another: it ends later and, if it is empty, begins later as well. No
match begins in between; right where a match that is not empty has ended, at most an empty one. -/
structure Follows (p : Program) (hay : Haystack) (x y : Cursor × Cursor) : Prop where
  mem_cursors : x.2 ∈ hay.cursors
  stop_le : x.2.offset ≤ y.1.offset
  stop_lt : x.2.offset < y.2.offset
  lt_of_empty : y.1.offset = y.2.offset → x.2.offset < y.1.offset
  none_between : ∀ q ∈ hay.cursors, x.2.offset < q.offset → q.offset < y.1.offset →
    p.FindsNoneAt hay q
  resumed : x.1.offset < x.2.offset → x.2.offset < y.1.offset →
    p.FindsNoneAt hay x.2 ∨ p.FindsTo hay x.2 x.2

namespace Remaining

variable {next : Option Cursor} {last : Option Nat} {l : List (Cursor × Cursor)}
variable {q : Cursor} {x y : Cursor × Cursor} {e : Nat}

theorem none_behind (h : p.Remaining hay next (some e) l) (hgo : GoesOn hay next e)
    (hq : q ∈ hay.cursors) (hlt : e < q.offset) (hhead : ∀ x ∈ l.head?, q.offset < x.1.offset) :
    p.FindsNoneAt hay q := by
  obtain ⟨start, hnext, hq⟩ := hgo.covers q hq hlt
  rcases h.none_before_head hnext hq hhead with hnone | ⟨hlast, -⟩
  · exact hnone
  · exact absurd (Option.some.inj hlast) (Nat.ne_of_lt hlt)

/-- The first match that remains comes next behind the one that has been found last. -/
theorem follows_head (h : p.Remaining hay next (some x.2.offset) l) (hx : x.2 ∈ hay.cursors)
    (hgo : GoesOn hay next x.2.offset) (hresume : x.1.offset < x.2.offset → next = some x.2)
    (hy : y ∈ l.head?) : p.Follows hay x y := by
  obtain ⟨start, hnext, hy₁, hy₂, hne⟩ := h.head_bounds hy
  have hstop := Cursor.offset_le_of_mem_onward hy₂
  have hle : x.2.offset ≤ y.1.offset :=
    Nat.le_trans (hgo.le start hnext) (Cursor.offset_le_of_mem_onward hy₁)
  have hempty : y.1.offset = y.2.offset → x.2.offset < y.1.offset := by
    intro heq
    have heq := Cursor.eq_of_offset_eq y.1.mem_onward_self hy₂ heq
    exact Nat.lt_of_le_of_ne hle fun he => hne heq (congrArg some he)
  have hhead : ∀ q : Cursor, q.offset < y.1.offset → ∀ z ∈ l.head?, q.offset < z.1.offset := by
    intro q hq z hz
    obtain rfl := Option.some.inj (hy.symm.trans hz)
    exact hq
  refine ⟨hx, hle, ?_, hempty, ?_, ?_⟩
  · rcases Nat.lt_or_eq_of_le hstop with hlt | heq
    · exact Nat.lt_of_le_of_lt hle hlt
    · exact heq ▸ hempty heq
  · intro q hq hlt hbefore
    exact h.none_behind hgo hq hlt (hhead q hbefore)
  · intro hstretch hlt
    have hresumed := h.none_before_head (hresume hstretch) x.2.mem_onward_self (hhead x.2 hlt)
    exact hresumed.imp_right And.right

/-- Every match is the one that begins at its place. -/
theorem bounds_of_mem (h : p.Remaining hay next last l) (hx : x ∈ l) :
    x.1 ∈ hay.cursors ∧ x.2 ∈ x.1.onward ∧ p.FindsTo hay x.1 x.2 := by
  induction h with
  | nil => simp at hx
  | nothing => simp at hx
  | skip _ _ _ ih => exact ih hx
  | empty h _ _ ih =>
    rcases List.mem_cons.mp hx with rfl | hx
    · exact ⟨h.mem_cursors, h.stop_mem, h.findsTo⟩
    · exact ih hx
  | stretch h _ _ ih =>
    rcases List.mem_cons.mp hx with rfl | hx
    · exact ⟨h.mem_cursors, h.stop_mem, h.findsTo⟩
    · exact ih hx

/-- **Each match comes next behind the one before.** -/
theorem isChain (h : p.Remaining hay next last l) : l.IsChain (p.Follows hay) := by
  induction h with
  | nil => exact .nil
  | nothing => exact .nil
  | skip _ _ _ ih => exact ih
  | @empty _ i _ _ h _ rest ih =>
    refine .cons ih fun y hy => ?_
    exact follows_head (x := (i, i)) rest h.mem_cursors (goesOn_next? h.mem_cursors)
      (absurd · (Nat.lt_irrefl _)) hy
  | @stretch _ i j _ _ h _ rest ih =>
    refine .cons ih fun y hy => ?_
    exact follows_head (x := (i, j)) rest h.stop_mem_cursors (goesOn_self h.stop_mem_cursors)
      (fun _ => rfl) hy

/-- The last match of a list is the first if none follows, and else the last of those that do. -/
theorem none_behind_cons (h : p.Remaining hay next (some y.2.offset) l)
    (hgo : GoesOn hay next y.2.offset) (hx : x ∈ (y :: l).getLast?) (hq : q ∈ hay.cursors)
    (hlt : x.2.offset < q.offset) (hrest : x ∈ l.getLast? → p.FindsNoneAt hay q) :
    p.FindsNoneAt hay q := by
  cases l with
  | nil =>
    obtain rfl := Option.some.inj hx
    exact h.none_behind hgo hq hlt (by simp)
  | cons z l => exact hrest (List.getLast?_cons_cons ▸ hx)

/-- No match begins behind the end of the last one. -/
theorem none_behind_getLast (h : p.Remaining hay next last l) (hx : x ∈ l.getLast?)
    (hq : q ∈ hay.cursors) (hlt : x.2.offset < q.offset) : p.FindsNoneAt hay q := by
  induction h with
  | nil => simp at hx
  | nothing => simp at hx
  | skip _ _ _ ih => exact ih hx
  | @empty _ i _ _ h _ rest ih =>
    exact none_behind_cons (y := (i, i)) rest (goesOn_next? h.mem_cursors) hx hq hlt ih
  | @stretch _ i j _ _ h _ rest ih =>
    exact none_behind_cons (y := (i, j)) rest (goesOn_self h.stop_mem_cursors) hx hq hlt ih

/-- No two matches end at the same boundary. -/
theorem nodup_stops (h : p.Remaining hay next last l) : (l.map fun x => x.2.offset).Nodup := by
  have hchain : (l.map fun x => x.2.offset).IsChain (· < ·) :=
    List.isChain_map_of_isChain _ (fun _ _ hxy => Follows.stop_lt hxy) h.isChain
  exact hchain.pairwise.imp fun hlt => Nat.ne_of_lt hlt

/-- **There are no more matches than places between characters**: their ends are different
boundaries. -/
theorem length_le (h : p.Remaining hay next last l) : l.length ≤ hay.chars.length + 1 := by
  have hsub : (l.map fun x => x.2.offset) ⊆ hay.cursors.map (·.offset) := by
    intro e he
    obtain ⟨x, hx, rfl⟩ := List.mem_map.mp he
    obtain ⟨hx₁, hx₂, -⟩ := h.bounds_of_mem hx
    exact List.mem_map_of_mem (Cursor.mem_onward_trans hx₁ hx₂)
  have hle := (h.nodup_stops.subperm hsub).length_le
  rw [List.length_map, List.length_map] at hle
  exact Nat.le_trans hle (Nat.le_of_eq hay.start.length_onward)

end Remaining

end Program

end LinearRegex
