import LinearRegex.Text.Cursor

/-!
# Boundaries

The places between the characters of a text, from a cursor on and of a whole text. Their offsets
ascend strictly, so a boundary is told by its offset; moving a cursor on leaves out exactly the
boundaries before the place it is moved to.
-/

namespace LinearRegex

namespace Cursor

/-- The boundaries from a place on, given what lies behind it. -/
def onwardFrom (offset : Nat) (before : Option Char) : List Char → List Cursor
  | [] => [⟨offset, before, []⟩]
  | c :: cs => ⟨offset, before, c :: cs⟩ :: onwardFrom (offset + c.utf8Size) (some c) cs

/-- The cursor and all boundaries behind it, in order. -/
def onward (cur : Cursor) : List Cursor := onwardFrom cur.offset cur.before cur.rest

/-! ## One step onward -/

theorem onward_of_rest_nil {cur : Cursor} (h : cur.rest = []) : cur.onward = [cur] := by
  obtain ⟨offset, before, rest⟩ := cur
  subst h
  rfl

theorem onward_of_rest_cons {cur : Cursor} {c : Char} {cs : List Char} (h : cur.rest = c :: cs) :
    cur.onward = cur :: cur.next.onward := by
  obtain ⟨offset, before, rest⟩ := cur
  subst h
  rfl

theorem exists_onward_cons (cur : Cursor) : ∃ behind, cur.onward = cur :: behind := by
  cases h : cur.rest with
  | nil => exact ⟨[], onward_of_rest_nil h⟩
  | cons c cs => exact ⟨_, onward_of_rest_cons h⟩

theorem rest_next {cur : Cursor} {c : Char} {cs : List Char} (h : cur.rest = c :: cs) :
    cur.next.rest = cs := by
  simp [next, h, push]

theorem exists_rest_of_after {cur : Cursor} {c : Char} (h : cur.after = some c) :
    ∃ cs, cur.rest = c :: cs := by
  unfold after at h
  cases hr : cur.rest with
  | nil =>
    rw [hr] at h
    simp at h
  | cons d cs =>
    rw [hr] at h
    rw [Option.some.inj h]
    exact ⟨cs, rfl⟩

/-- A step over a character leaves less text behind it. -/
theorem rest_next_lt {cur : Cursor} {c : Char} (h : cur.after = some c) :
    cur.next.rest.length < cur.rest.length := by
  obtain ⟨cs, hcs⟩ := exists_rest_of_after h
  rw [rest_next hcs, hcs]
  simp

theorem mem_onward_self (cur : Cursor) : cur ∈ cur.onward := by
  obtain ⟨behind, h⟩ := cur.exists_onward_cons
  rw [h]
  exact List.mem_cons_self

/-- Induction along the boundaries from a cursor on. -/
theorem onward_induction {motive : Cursor → Prop} (last : ∀ cur, cur.rest = [] → motive cur)
    (step : ∀ cur c cs, cur.rest = c :: cs → motive cur.next → motive cur) (cur : Cursor) :
    motive cur := by
  generalize hn : cur.rest = rest
  induction rest generalizing cur with
  | nil => exact last cur hn
  | cons c cs ih => exact step cur c cs hn (ih cur.next (rest_next hn))

/-! ## The order of boundaries -/

theorem offset_next {cur : Cursor} {c : Char} {cs : List Char} (h : cur.rest = c :: cs) :
    cur.next.offset = cur.offset + c.utf8Size := by
  simp [next, h, push]

theorem offset_lt_next {cur : Cursor} {c : Char} {cs : List Char} (h : cur.rest = c :: cs) :
    cur.offset < cur.next.offset := by
  rw [offset_next h]
  exact Nat.lt_add_of_pos_right c.utf8Size_pos

theorem offset_le_of_mem_onward {cur q : Cursor} (h : q ∈ cur.onward) :
    cur.offset ≤ q.offset := by
  induction cur using onward_induction with
  | last cur hr =>
    rw [onward_of_rest_nil hr, List.mem_singleton] at h
    exact h ▸ Nat.le_refl _
  | step cur c cs hr ih =>
    rw [onward_of_rest_cons hr, List.mem_cons] at h
    rcases h with rfl | h
    · exact Nat.le_refl _
    · exact Nat.le_trans (Nat.le_of_lt (offset_lt_next hr)) (ih h)

/-- The offsets of boundaries ascend strictly. -/
theorem onward_pairwise (cur : Cursor) : cur.onward.Pairwise (·.offset < ·.offset) := by
  induction cur using onward_induction with
  | last cur hr => simp [onward_of_rest_nil hr]
  | step cur c cs hr ih =>
    rw [onward_of_rest_cons hr, List.pairwise_cons]
    exact ⟨fun q hq => Nat.lt_of_lt_of_le (offset_lt_next hr) (offset_le_of_mem_onward hq), ih⟩

/-- A boundary is told by its offset. -/
theorem eq_of_offset_eq {cur q r : Cursor} (hq : q ∈ cur.onward) (hr : r ∈ cur.onward)
    (h : q.offset = r.offset) : q = r := by
  induction cur using onward_induction with
  | last cur hn =>
    rw [onward_of_rest_nil hn, List.mem_singleton] at hq hr
    rw [hq, hr]
  | step cur c cs hn ih =>
    rw [onward_of_rest_cons hn, List.mem_cons] at hq hr
    have hlt := offset_lt_next hn
    rcases hq with rfl | hq <;> rcases hr with rfl | hr
    · rfl
    · have := offset_le_of_mem_onward hr
      omega
    · have := offset_le_of_mem_onward hq
      omega
    · exact ih hq hr

/-- The boundaries from a later one on are what is left when those before it are gone. -/
theorem onward_eq_append {cur q : Cursor} (h : q ∈ cur.onward) :
    ∃ before, cur.onward = before ++ q.onward ∧ ∀ x ∈ before, x.offset < q.offset := by
  induction cur using onward_induction with
  | last cur hr =>
    rw [onward_of_rest_nil hr, List.mem_singleton] at h
    exact ⟨[], by simp [h], by simp⟩
  | step cur c cs hr ih =>
    by_cases he : q = cur
    · exact ⟨[], by simp [he], by simp⟩
    · have hq : q ∈ cur.next.onward := by
        rw [onward_of_rest_cons hr, List.mem_cons] at h
        exact h.resolve_left he
      obtain ⟨before, heq, hlt⟩ := ih hq
      refine ⟨cur :: before, by rw [onward_of_rest_cons hr, heq]; simp, ?_⟩
      intro x hx
      rcases List.mem_cons.mp hx with rfl | hx
      · exact Nat.lt_of_lt_of_le (offset_lt_next hr) (offset_le_of_mem_onward hq)
      · exact hlt x hx

theorem mem_onward_trans {cur q r : Cursor} (hq : q ∈ cur.onward) (hr : r ∈ q.onward) :
    r ∈ cur.onward := by
  obtain ⟨before, heq, -⟩ := onward_eq_append hq
  rw [heq]
  exact List.mem_append_right _ hr

/-- What lies from a boundary on is what lies behind it. -/
theorem mem_onward_iff {cur q r : Cursor} (hq : q ∈ cur.onward) :
    r ∈ q.onward ↔ r ∈ cur.onward ∧ q.offset ≤ r.offset := by
  constructor
  · intro hr
    exact ⟨mem_onward_trans hq hr, offset_le_of_mem_onward hr⟩
  · rintro ⟨hr, hle⟩
    obtain ⟨before, heq, hlt⟩ := onward_eq_append hq
    rw [heq, List.mem_append] at hr
    rcases hr with hr | hr
    · have := hlt r hr
      omega
    · exact hr

theorem next_mem_onward (cur : Cursor) : cur.next ∈ cur.onward := by
  cases h : cur.rest with
  | nil => simp [onward_of_rest_nil h, next, h]
  | cons c cs => simp [onward_of_rest_cons h, mem_onward_self]

theorem rest_length_le_of_mem_onward {cur q : Cursor} (h : q ∈ cur.onward) :
    q.rest.length ≤ cur.rest.length := by
  induction cur using onward_induction with
  | last cur hr =>
    rw [onward_of_rest_nil hr, List.mem_singleton] at h
    exact h ▸ Nat.le_refl _
  | step cur c cs hr ih =>
    rw [onward_of_rest_cons hr, List.mem_cons] at h
    rcases h with rfl | h
    · exact Nat.le_refl _
    · have := ih h
      rw [rest_next hr] at this
      rw [hr, List.length_cons]
      omega

/-- What lies behind a cursor lies from the next boundary on. -/
theorem mem_onward_next_of_lt {cur q : Cursor} (hq : q ∈ cur.onward)
    (hlt : cur.offset < q.offset) : cur.rest ≠ [] ∧ q ∈ cur.next.onward := by
  cases h : cur.rest with
  | nil =>
    rw [onward_of_rest_nil h, List.mem_singleton] at hq
    exact absurd hlt (hq ▸ Nat.lt_irrefl _)
  | cons c cs =>
    rw [onward_of_rest_cons h, List.mem_cons] at hq
    refine ⟨List.cons_ne_nil c cs, hq.resolve_left ?_⟩
    rintro rfl
    exact Nat.lt_irrefl _ hlt

theorem offset_lt_of_mem_onward {cur q : Cursor} (hq : q ∈ cur.onward) (hne : cur ≠ q) :
    cur.offset < q.offset :=
  Nat.lt_of_le_of_ne (offset_le_of_mem_onward hq) fun h =>
    hne (eq_of_offset_eq cur.mem_onward_self hq h)

/-- Less text is left behind a later boundary. -/
theorem rest_length_lt_of_mem_onward {cur q : Cursor} (hq : q ∈ cur.onward) (hne : cur ≠ q) :
    q.rest.length < cur.rest.length := by
  obtain ⟨hrest, hq⟩ := mem_onward_next_of_lt hq (offset_lt_of_mem_onward hq hne)
  obtain ⟨c, cs, h⟩ := List.exists_cons_of_ne_nil hrest
  have := rest_length_le_of_mem_onward hq
  rw [rest_next h] at this
  rw [h, List.length_cons]
  omega

theorem length_onward (cur : Cursor) : cur.onward.length = cur.rest.length + 1 := by
  induction cur using onward_induction with
  | last cur hr => rw [onward_of_rest_nil hr, hr, List.length_singleton, List.length_nil]
  | step cur c cs hr ih =>
    rw [onward_of_rest_cons hr, List.length_cons, ih, rest_next hr, hr, List.length_cons]

/-- Moving on to an offset leaves out just the boundaries before it. -/
theorem onward_advanceTo (cur : Cursor) (target : Nat) :
    ∃ before, cur.onward = before ++ (cur.advanceTo target).onward ∧
      ∀ x ∈ before, x.offset < target := by
  induction cur using onward_induction with
  | last cur hr =>
    refine ⟨[], ?_, by simp⟩
    simp only [advanceTo, hr, seek, List.nil_append]
    rw [onward_of_rest_nil hr, onward_of_rest_nil rfl]
    obtain ⟨offset, before, rest⟩ := cur
    subst hr
    rfl
  | step cur c cs hr ih =>
    -- Either this boundary is far enough, or it is left out with those before it.
    by_cases ht : target ≤ cur.offset
    · refine ⟨[], ?_, by simp⟩
      have hs : cur.advanceTo target = cur := by
        obtain ⟨offset, before, rest⟩ := cur
        subst hr
        simp only [advanceTo, seek, if_pos ht]
      rw [hs, List.nil_append]
    · obtain ⟨before, heq, hlt⟩ := ih
      have hs : cur.advanceTo target = cur.next.advanceTo target := by
        obtain ⟨offset, before, rest⟩ := cur
        subst hr
        simp only [advanceTo, seek, if_neg ht, next, push]
      refine ⟨cur :: before, by rw [hs, onward_of_rest_cons hr, heq]; simp, ?_⟩
      intro x hx
      rcases List.mem_cons.mp hx with rfl | hx
      · omega
      · exact hlt x hx

/-- Moving on to the offset of a boundary leads to the boundary. -/
theorem advanceTo_offset {cur q : Cursor} (hq : q ∈ cur.onward) :
    cur.advanceTo q.offset = q := by
  induction cur using onward_induction with
  | last cur hr =>
    rw [onward_of_rest_nil hr, List.mem_singleton] at hq
    obtain ⟨offset, before, rest⟩ := cur
    subst hr hq
    rfl
  | step cur c cs hr ih =>
    rw [onward_of_rest_cons hr, List.mem_cons] at hq
    rcases hq with rfl | hq
    · obtain ⟨offset, before, rest⟩ := q
      subst hr
      simp [advanceTo, seek]
    · have hlt := Nat.lt_of_lt_of_le (offset_lt_next hr) (offset_le_of_mem_onward hq)
      refine Eq.trans ?_ (ih hq)
      obtain ⟨offset, before, rest⟩ := cur
      subst hr
      simp only [advanceTo, seek, if_neg (Nat.not_le.mpr hlt), next, push]

theorem advanceTo_mem_onward (cur : Cursor) (target : Nat) : cur.advanceTo target ∈ cur.onward := by
  obtain ⟨before, heq, -⟩ := onward_advanceTo cur target
  rw [heq]
  exact List.mem_append_right _ (mem_onward_self _)

end Cursor

/-! ## The boundaries of a text -/

namespace Haystack

/-- All boundaries of a text, in order. -/
def cursors (hay : Haystack) : List Cursor := hay.start.onward

/-- A boundary of a text is a boundary from its start on. -/
theorem start_mem_cursors (hay : Haystack) : hay.start ∈ hay.cursors := hay.start.mem_onward_self

theorem mem_onward_iff_of_mem_cursors {hay : Haystack} {cur q : Cursor} (h : cur ∈ hay.cursors) :
    q ∈ cur.onward ↔ q ∈ hay.cursors ∧ cur.offset ≤ q.offset :=
  Cursor.mem_onward_iff h

theorem next_mem_cursors {hay : Haystack} {cur : Cursor} (h : cur ∈ hay.cursors) :
    cur.next ∈ hay.cursors :=
  Cursor.mem_onward_trans h cur.next_mem_onward

end Haystack

end LinearRegex
