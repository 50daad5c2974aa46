import LinearRegex.Engine.Search
import LinearRegex.Proofs.Text.Boundary
import Mathlib.Data.List.Nodup

/-!
# Runs

A thread by itself: it goes from configuration to configuration as the instructions say, at a split
to one target or the other. A run that comes to an accepting instruction is a match, and the slots
recorded on the way are its captures. Runs from one configuration are ordered by the first split
where they part, the primary target first.

Main statements: accepting runs from one configuration are linearly ordered (`Accepts.trichotomy`,
`Before.asymm`), and every accepting run has a shortcut that is never twice in a configuration
(`Accepts.exists_nodup`).
-/

namespace LinearRegex

/-- Whether a thread waits at an instruction, for a character or because it is complete. -/
def Instr.waits : Instr → Bool
  | .accept => true
  | .char _ => true
  | .foldedChar _ => true
  | .bracket _ => true
  | .any => true
  | .anyButNewline => true
  | .assertion _ => false
  | .split _ _ => false
  | .jump _ => false
  | .save _ => false

/-- Where a thread is: at an instruction, and at a place of the text. -/
structure Config where
  ip : Nat
  cur : Cursor
deriving DecidableEq

namespace Program

variable {p : Program} {c d e : Config} {r s t : List Config}

/-- The configurations a thread can go on to, the preferred one first. -/
def successors (p : Program) (c : Config) : List Config :=
  match p.instrs[c.ip]? with
  | some (.split primary secondary) => [⟨primary, c.cur⟩, ⟨secondary, c.cur⟩]
  | some (.jump target) => [⟨target, c.cur⟩]
  | some (.save _) => [⟨c.ip + 1, c.cur⟩]
  | some (.assertion a) => if a.holds c.cur then [⟨c.ip + 1, c.cur⟩] else []
  | some i => if c.cur.after.any (p.takes · i) then [⟨c.ip + 1, c.cur.next⟩] else []
  | none => []

/-- Whether a match is complete in a configuration. -/
def IsAccept (p : Program) (c : Config) : Prop := p.instrs[c.ip]? = some .accept

/-- A run from a configuration, which it lists first, to an accepting instruction. -/
inductive Accepts (p : Program) : Config → List Config → Prop
  | accept {c : Config} (h : p.IsAccept c) : Accepts p c [c]
  | step {c d : Config} {r : List Config} (h : d ∈ p.successors c) (hr : Accepts p d r) :
    Accepts p c (c :: r)

/-- A run is preferred to another if it takes the primary target where they part. -/
inductive Before (p : Program) : List Config → List Config → Prop
  | split {c : Config} {primary secondary : Nat} {r s : List Config}
    (h : p.instrs[c.ip]? = some (.split primary secondary)) (ne : primary ≠ secondary) :
    Before p (c :: ⟨primary, c.cur⟩ :: r) (c :: ⟨secondary, c.cur⟩ :: s)
  | cons {c : Config} {r s : List Config} (h : Before p r s) : Before p (c :: r) (c :: s)

/-- The slots after a configuration has been passed. -/
def recordAt (p : Program) (c : Config) (slots : Slots) : Slots :=
  match p.instrs[c.ip]? with
  | some (.save slot) => slots.setIfInBounds slot (some c.cur.offset)
  | _ => slots

/-- The slots after a run. -/
def recorded (p : Program) (r : List Config) (slots : Slots) : Slots :=
  r.foldl (fun slots c => p.recordAt c slots) slots

/-- A run is preferred among those allowed: no other one that is allowed comes before it. -/
structure Preferred (p : Program) (allowed : List Config → Prop) (c : Config) (r : List Config) :
    Prop where
  accepts : p.Accepts c r
  isAllowed : allowed r
  first : ∀ s, p.Accepts c s → allowed s → s = r ∨ p.Before r s

/-! ## Successors -/

theorem successors_split {primary secondary : Nat}
    (h : p.instrs[c.ip]? = some (.split primary secondary)) :
    p.successors c = [⟨primary, c.cur⟩, ⟨secondary, c.cur⟩] := by
  simp only [successors, h]

theorem successors_jump {target : Nat} (h : p.instrs[c.ip]? = some (.jump target)) :
    p.successors c = [⟨target, c.cur⟩] := by
  simp only [successors, h]

theorem successors_save {slot : Nat} (h : p.instrs[c.ip]? = some (.save slot)) :
    p.successors c = [⟨c.ip + 1, c.cur⟩] := by
  simp only [successors, h]

theorem successors_assertion {a : Assertion} (h : p.instrs[c.ip]? = some (.assertion a)) :
    p.successors c = if a.holds c.cur then [⟨c.ip + 1, c.cur⟩] else [] := by
  simp only [successors, h]

/-- A thread that waits goes on behind the next character or not at all. -/
theorem successors_of_waits {i : Instr} (hi : p.instrs[c.ip]? = some i) (hw : i.waits = true) :
    p.successors c =
      if c.cur.after.any (p.takes · i) then [⟨c.ip + 1, c.cur.next⟩] else [] := by
  unfold successors
  rw [hi]
  cases i <;> first | rfl | simp [Instr.waits] at hw

/-- Only a split has several successors; else there is at most one. -/
theorem successors_cases (p : Program) (c : Config) :
    (∃ primary secondary, p.instrs[c.ip]? = some (.split primary secondary)) ∨
      p.successors c = [] ∨ ∃ d, p.successors c = [d] := by
  unfold successors
  split
  · next primary secondary h => exact Or.inl ⟨primary, secondary, h⟩
  · exact Or.inr (Or.inr ⟨_, rfl⟩)
  · exact Or.inr (Or.inr ⟨_, rfl⟩)
  · split
    · exact Or.inr (Or.inr ⟨_, rfl⟩)
    · exact Or.inr (Or.inl rfl)
  · split
    · exact Or.inr (Or.inr ⟨_, rfl⟩)
    · exact Or.inr (Or.inl rfl)
  · exact Or.inr (Or.inl rfl)

theorem successors_of_isAccept (h : p.IsAccept c) : p.successors c = [] := by
  unfold IsAccept at h
  simp [successors, h, takes]

/-- A thread stays where it is in the text or goes on by one character. -/
theorem cur_of_mem_successors (h : d ∈ p.successors c) :
    d.cur = c.cur ∨ (d.cur = c.cur.next ∧ d.cur.rest.length < c.cur.rest.length) := by
  unfold successors at h
  split at h
  · simp only [List.mem_cons, List.not_mem_nil, or_false] at h
    rcases h with rfl | rfl <;> exact Or.inl rfl
  · rw [List.mem_singleton] at h
    exact Or.inl (by rw [h])
  · rw [List.mem_singleton] at h
    exact Or.inl (by rw [h])
  · split at h
    · rw [List.mem_singleton] at h
      exact Or.inl (by rw [h])
    · simp at h
  · split at h
    · next hi =>
      rw [List.mem_singleton] at h
      obtain ⟨ch, hch, -⟩ := (Option.any_eq_true _ _).mp hi
      exact Or.inr (by rw [h]; exact ⟨rfl, Cursor.rest_next_lt hch⟩)
    · simp at h
  · simp at h

theorem cur_mem_onward_of_mem_successors (h : d ∈ p.successors c) : d.cur ∈ c.cur.onward := by
  rcases cur_of_mem_successors h with h | ⟨h, -⟩
  · rw [h]
    exact c.cur.mem_onward_self
  · rw [h]
    exact c.cur.next_mem_onward

/-! ## Accepting runs -/

namespace Accepts

theorem exists_cons (h : p.Accepts c r) : ∃ t, r = c :: t := by
  cases h with
  | accept _ => exact ⟨[], rfl⟩
  | step _ _ => exact ⟨_, rfl⟩

theorem mem_self (h : p.Accepts c r) : c ∈ r := by
  obtain ⟨t, rfl⟩ := h.exists_cons
  exact List.mem_cons_self

/-- A run that does not end where it is goes on to a successor. -/
theorem exists_step (h : p.Accepts c r) (hne : ¬ p.IsAccept c) :
    ∃ d t, r = c :: t ∧ d ∈ p.successors c ∧ p.Accepts d t := by
  cases h with
  | accept ha => exact absurd ha hne
  | step hd hr => exact ⟨_, _, rfl, hd, hr⟩

theorem eq_singleton (h : p.Accepts c r) (ha : p.IsAccept c) : r = [c] := by
  cases h with
  | accept _ => rfl
  | step hd _ =>
    rw [successors_of_isAccept ha] at hd
    simp at hd

/-- Where there is only one way on, a run takes it. -/
theorem exists_tail (h : p.Accepts c r) (hd : p.successors c = [d]) :
    ∃ t, r = c :: t ∧ p.Accepts d t := by
  cases h with
  | accept ha =>
    rw [successors_of_isAccept ha] at hd
    simp at hd
  | step he hr =>
    rw [hd, List.mem_singleton] at he
    subst he
    exact ⟨_, rfl, hr⟩

/-- All configurations of a run lie at boundaries from its beginning on. -/
theorem cur_mem_onward (h : p.Accepts c r) : ∀ x ∈ r, x.cur ∈ c.cur.onward := by
  induction h with
  | @accept c _ =>
    intro x hx
    rw [List.mem_singleton.mp hx]
    exact c.cur.mem_onward_self
  | @step c d r hd _ ih =>
    intro x hx
    rcases List.mem_cons.mp hx with rfl | hx
    · exact x.cur.mem_onward_self
    · exact Cursor.mem_onward_trans (cur_mem_onward_of_mem_successors hd) (ih x hx)

theorem rest_length_le (h : p.Accepts c r) : ∀ x ∈ r, x.cur.rest.length ≤ c.cur.rest.length :=
  fun x hx => Cursor.rest_length_le_of_mem_onward (h.cur_mem_onward x hx)

theorem ip_lt_size (h : p.Accepts c r) : ∀ x ∈ r, x.ip < p.instrs.size := by
  have inBounds : ∀ {x : Config} {i : Instr}, p.instrs[x.ip]? = some i → x.ip < p.instrs.size :=
    fun hi => (Array.getElem?_eq_some_iff.mp hi).1
  induction h with
  | accept ha =>
    intro x hx
    rw [List.mem_singleton.mp hx]
    exact inBounds ha
  | @step c d r hd _ ih =>
    intro x hx
    rcases List.mem_cons.mp hx with rfl | hx
    · unfold successors at hd
      split at hd
      all_goals first
        | exact inBounds ‹_›
        | simp at hd
    · exact ih x hx

/-- What is left of a run from one of its configurations on is a run. -/
theorem suffix (h : p.Accepts c r) (hd : d ∈ r) :
    ∃ pre post, r = pre ++ post ∧ p.Accepts d post := by
  induction h with
  | accept ha =>
    rw [List.mem_singleton] at hd
    subst hd
    exact ⟨[], _, rfl, .accept ha⟩
  | @step c e r he hr ih =>
    rcases List.mem_cons.mp hd with rfl | hd
    · exact ⟨[], _, rfl, .step he hr⟩
    · obtain ⟨pre, post, heq, hpost⟩ := ih hd
      exact ⟨c :: pre, post, by rw [heq, List.cons_append], hpost⟩

/-- A run goes on as well with another end. -/
theorem replace_end {x : Config} (h : p.Accepts c (r ++ x :: s)) (ht : p.Accepts x t) :
    p.Accepts c (r ++ t) := by
  induction r generalizing c with
  | nil =>
    obtain ⟨u, hu⟩ := h.exists_cons
    obtain ⟨rfl, -⟩ := List.cons.inj hu
    exact ht
  | cons y r ih =>
    rw [List.cons_append] at h ⊢
    generalize hu : r ++ x :: s = u at h
    cases h with
    | accept _ => simp at hu
    | step hd hr => exact .step hd (ih (hu ▸ hr))

/-- Leaving out all detours makes a run that is never twice in a configuration. -/
theorem exists_nodup (h : p.Accepts c r) : ∃ s, p.Accepts c s ∧ s.Nodup ∧ s ⊆ r := by
  induction h with
  | @accept c ha => exact ⟨[c], .accept ha, List.nodup_singleton c, fun _ hx => hx⟩
  | @step c d r hd hr ih =>
    obtain ⟨s, hs, hn, hsub⟩ := ih
    -- If what follows comes back here, all before that is a detour.
    by_cases hc : c ∈ s
    · obtain ⟨pre, post, rfl, hpost⟩ := hs.suffix hc
      refine ⟨post, hpost, (List.nodup_append.mp hn).2.1, ?_⟩
      intro x hx
      exact List.mem_cons_of_mem _ (hsub (List.mem_append_right _ hx))
    · exact ⟨c :: s, .step hd hs, List.nodup_cons.mpr ⟨hc, hn⟩, List.cons_subset_cons c hsub⟩

end Accepts

/-! ## The order of runs -/

namespace Before

theorem exists_cons (h : p.Before r s) : ∃ c r' s', r = c :: r' ∧ s = c :: s' := by
  cases h with
  | split _ _ => exact ⟨_, _, _, rfl, rfl⟩
  | cons _ => exact ⟨_, _, _, rfl, rfl⟩

/-- Runs that part right behind a configuration go on to different ones. -/
theorem cons_cons (h : p.Before (c :: d :: r) (c :: e :: s)) :
    (p.instrs[c.ip]? = some (.split d.ip e.ip) ∧ d ≠ e) ∨
      (d = e ∧ p.Before (d :: r) (e :: s)) := by
  cases h with
  | split h ne => exact Or.inl ⟨h, fun he => ne (Config.mk.inj he).1⟩
  | cons h =>
    obtain ⟨x, r', s', hr, hs⟩ := h.exists_cons
    obtain ⟨rfl, -⟩ := List.cons.inj hr
    obtain ⟨rfl, -⟩ := List.cons.inj hs
    exact Or.inr ⟨rfl, h⟩

theorem append_left_iff (pre : List Config) :
    p.Before (pre ++ c :: r) (pre ++ c :: s) ↔ p.Before (c :: r) (c :: s) := by
  induction pre with
  | nil => exact Iff.rfl
  | cons x pre ih =>
    rw [← ih, List.cons_append, List.cons_append]
    constructor
    · intro h
      cases pre with
      | nil => exact h.cons_cons.elim (fun h => absurd rfl h.2) And.right
      | cons y pre => exact h.cons_cons.elim (fun h => absurd rfl h.2) And.right
    · exact .cons

theorem asymm (h : p.Before r s) : ¬ p.Before s r := by
  induction h with
  | @split c primary secondary r s h ne =>
    intro h'
    rcases h'.cons_cons with ⟨h₂, -⟩ | ⟨he, -⟩
    · rw [h] at h₂
      injection Option.some.inj h₂ with h₃ _
      exact ne h₃
    · exact ne (Config.mk.inj he).1.symm
  | @cons c r s h ih =>
    intro h'
    obtain ⟨x, r', s', rfl, rfl⟩ := h.exists_cons
    rcases h'.cons_cons with ⟨-, h₂⟩ | ⟨-, h₂⟩
    · exact h₂ rfl
    · exact ih h₂

end Before

/-- Accepting runs from one configuration are linearly ordered. -/
theorem Accepts.trichotomy (hr : p.Accepts c r) (hs : p.Accepts c s) :
    r = s ∨ p.Before r s ∨ p.Before s r := by
  induction hr generalizing s with
  | @accept c ha =>
    cases hs with
    | accept _ => exact Or.inl rfl
    | step hd _ =>
      rw [successors_of_isAccept ha] at hd
      simp at hd
  | @step c d r hd hr ih =>
    cases hs with
    | accept ha =>
      rw [successors_of_isAccept ha] at hd
      simp at hd
    | @step _ e s he hs =>
      by_cases hde : d = e
      · subst hde
        rcases ih hs with h | h | h
        · exact Or.inl (by rw [h])
        · exact Or.inr (Or.inl (.cons h))
        · exact Or.inr (Or.inr (.cons h))
      · -- Runs part only where there are two ways on.
        obtain ⟨r, rfl⟩ := hr.exists_cons
        obtain ⟨s, rfl⟩ := hs.exists_cons
        rcases successors_cases p c with ⟨primary, secondary, h⟩ | h | ⟨x, h⟩
        · rw [successors_split h] at hd he
          have ne : primary ≠ secondary := by
            rintro rfl
            simp_all
          simp only [List.mem_cons, List.not_mem_nil, or_false] at hd he
          rcases hd with rfl | rfl <;> rcases he with rfl | rfl
          · exact absurd rfl hde
          · exact Or.inr (Or.inl (.split h ne))
          · exact Or.inr (Or.inr (.split h ne))
          · exact absurd rfl hde
        · rw [h] at hd
          simp at hd
        · rw [h, List.mem_singleton] at hd he
          exact absurd (hd.trans he.symm) hde

/-- At most one run is preferred. -/
theorem Preferred.unique {allowed : List Config → Prop} (hr : p.Preferred allowed c r)
    (hs : p.Preferred allowed c s) : r = s := by
  rcases hr.first s hs.accepts hs.isAllowed with h | h
  · exact h.symm
  · rcases hs.first r hr.accepts hr.isAllowed with h' | h'
    · exact h'
    · exact absurd h' h.asymm

/-- All runs are allowed. -/
def AnyRun (_ : List Config) : Prop := True

/-- If a run is preferred among all, so is what is left of it behind its beginning. -/
theorem Preferred.tail (h : p.Preferred AnyRun c (c :: r)) (hd : d ∈ p.successors c)
    (hr : p.Accepts d r) : p.Preferred AnyRun d r := by
  refine ⟨hr, trivial, ?_⟩
  intro s hs _
  obtain ⟨r', rfl⟩ := hr.exists_cons
  obtain ⟨s', rfl⟩ := hs.exists_cons
  rcases h.first (c :: d :: s') (.step hd hs) trivial with heq | hb
  · exact Or.inl (List.cons.inj heq).2
  · exact Or.inr ((Before.append_left_iff [c]).mp hb)

theorem Preferred.before_of_length_ne (h : p.Preferred AnyRun c r) (hs : p.Accepts c s)
    (hne : s.length ≠ r.length) : p.Before r s := by
  rcases h.first s hs trivial with rfl | hb
  · exact absurd rfl hne
  · exact hb

/-- A run that is preferred among all has no detours: if it came back to a configuration, then
either leaving out what is between or doing that twice would be preferred to it. -/
theorem Preferred.nodup (h : p.Preferred AnyRun c r) : r.Nodup := by
  have hr := h.accepts
  induction hr with
  | @accept c _ => exact List.nodup_singleton c
  | @step c d r hd hr ih =>
    refine List.nodup_cons.mpr ⟨fun hc => ?_, ih (h.tail hd hr)⟩
    obtain ⟨pre, post, rfl, hpost⟩ := hr.suffix hc
    obtain ⟨t, rfl⟩ := hpost.exists_cons
    have hshort : p.Before (c :: (pre ++ c :: t)) (c :: t) :=
      h.before_of_length_ne hpost (by simp; omega)
    have hpumped : p.Accepts c ((c :: pre) ++ c :: (pre ++ c :: t)) :=
      h.accepts.replace_end (r := c :: pre) (s := t) h.accepts
    have hlong : p.Before ((c :: pre) ++ c :: t) ((c :: pre) ++ c :: (pre ++ c :: t)) :=
      h.before_of_length_ne hpumped (by simp; omega)
    exact hshort.asymm ((Before.append_left_iff (c :: pre)).mp hlong)

/-! ## Recorded slots -/

@[simp] theorem recorded_nil (p : Program) (slots : Slots) : p.recorded [] slots = slots := rfl

@[simp] theorem recorded_cons (p : Program) (c : Config) (r : List Config) (slots : Slots) :
    p.recorded (c :: r) slots = p.recorded r (p.recordAt c slots) := rfl

theorem recordAt_save {slot : Nat} {slots : Slots} (h : p.instrs[c.ip]? = some (.save slot)) :
    p.recordAt c slots = slots.setIfInBounds slot (some c.cur.offset) := by
  simp only [recordAt, h]

theorem recordAt_of_instr {i : Instr} {slots : Slots} (h : p.instrs[c.ip]? = some i)
    (hne : ∀ slot, i ≠ .save slot) : p.recordAt c slots = slots := by
  unfold recordAt
  rw [h]
  split
  · next slot hslot => exact absurd (Option.some.inj hslot) (hne slot)
  · rfl

theorem recorded_append (p : Program) (r s : List Config) (slots : Slots) :
    p.recorded (r ++ s) slots = p.recorded s (p.recorded r slots) := List.foldl_append

@[simp] theorem size_recordAt (p : Program) (c : Config) (slots : Slots) :
    (p.recordAt c slots).size = slots.size := by
  unfold recordAt
  split
  · exact Array.size_setIfInBounds
  · rfl

@[simp] theorem size_recorded (p : Program) (r : List Config) (slots : Slots) :
    (p.recorded r slots).size = slots.size := by
  induction r generalizing slots with
  | nil => rfl
  | cons c r ih => rw [recorded_cons, ih, size_recordAt]

end Program

end LinearRegex
