import LinearRegex.Proofs.Run.Basic
import Mathlib.Data.List.Perm.Subperm

/-!
# The outcome of ways to follow

Several ways still to be followed, the preferred one first: the first that leads to a match decides,
by its preferred run. A way may be replaced by the ways its configuration leads on to, provided that
no run comes back to the configuration; to keep account of that, runs are asked to be *fresh*: never
twice in one configuration, and never in one that has been visited.

Main statements: a way may be followed one step on (`Outcome.of_expand`, and for fresh runs
`Outcome.of_expand_fresh`), and there always is an outcome of fresh runs (`exists_outcome_fresh`).
-/

namespace LinearRegex

/-- A match that is complete, or a way still to be followed, with the slots recorded so far. -/
inductive Pending where
  | complete (slots : Slots)
  | follow (c : Config) (slots : Slots)

/-- The slots recorded so far. -/
def Pending.slots : Pending → Slots
  | complete slots => slots
  | follow _ slots => slots

namespace Program

variable {p : Program} {allowed allowed' : List Config → Prop} {visited : Config → Prop}
variable {c d : Config} {r : List Config} {slots : Slots} {ways ways' : List Pending}
variable {outcome : Option Slots}

instance (p : Program) (c : Config) : Decidable (p.IsAccept c) :=
  inferInstanceAs (Decidable (p.instrs[c.ip]? = some .accept))

/-- What comes of ways in order of preference, where only some runs are allowed. -/
inductive Outcome (p : Program) (allowed : List Config → Prop) :
    List Pending → Option Slots → Prop
  | nil : Outcome p allowed [] none
  | complete {slots : Slots} {ways : List Pending} :
    Outcome p allowed (.complete slots :: ways) (some slots)
  | run {c : Config} {slots : Slots} {ways : List Pending} {r : List Config}
    (h : p.Preferred allowed c r) :
    Outcome p allowed (.follow c slots :: ways) (some (p.recorded r slots))
  | skip {c : Config} {slots : Slots} {ways : List Pending} {outcome : Option Slots}
    (h : ∀ r, p.Accepts c r → ¬ allowed r) (rest : Outcome p allowed ways outcome) :
    Outcome p allowed (.follow c slots :: ways) outcome

/-- Where a way leads on to in one step. -/
def expand (p : Program) (c : Config) (slots : Slots) : List Pending :=
  if p.IsAccept c then [.complete slots]
  else (p.successors c).map fun d => .follow d (p.recordAt c slots)

/-- Never twice in one configuration, and never in a visited one. -/
def Fresh (visited : Config → Prop) (r : List Config) : Prop := r.Nodup ∧ ∀ x ∈ r, ¬ visited x

/-! ## The ways on -/

theorem expand_of_not_accept {i : Instr} (hi : p.instrs[c.ip]? = some i) (hne : i ≠ .accept) :
    p.expand c slots = (p.successors c).map fun d => .follow d (p.recordAt c slots) := by
  refine if_neg fun h => hne ?_
  unfold IsAccept at h
  exact Option.some.inj (hi.symm.trans h)

theorem expand_accept (h : p.IsAccept c) : p.expand c slots = [.complete slots] := if_pos h

theorem expand_jump {target : Nat} (hi : p.instrs[c.ip]? = some (.jump target)) :
    p.expand c slots = [.follow ⟨target, c.cur⟩ slots] := by
  rw [expand_of_not_accept hi (by simp), successors_jump hi, recordAt_of_instr hi (by simp)]
  rfl

theorem expand_split {primary secondary : Nat}
    (hi : p.instrs[c.ip]? = some (.split primary secondary)) :
    p.expand c slots = [.follow ⟨primary, c.cur⟩ slots, .follow ⟨secondary, c.cur⟩ slots] := by
  rw [expand_of_not_accept hi (by simp), successors_split hi, recordAt_of_instr hi (by simp)]
  rfl

theorem expand_save {slot : Nat} (hi : p.instrs[c.ip]? = some (.save slot)) :
    p.expand c slots =
      [.follow ⟨c.ip + 1, c.cur⟩ (slots.setIfInBounds slot (some c.cur.offset))] := by
  rw [expand_of_not_accept hi (by simp), successors_save hi, recordAt_save hi]
  rfl

theorem expand_assertion {a : Assertion} (hi : p.instrs[c.ip]? = some (.assertion a)) :
    p.expand c slots = if a.holds c.cur then [.follow ⟨c.ip + 1, c.cur⟩ slots] else [] := by
  rw [expand_of_not_accept hi (by simp), successors_assertion hi, recordAt_of_instr hi (by simp)]
  split <;> rfl

/-! ## Preferred runs -/

theorem Preferred.congr (h : p.Preferred allowed c r)
    (iff : ∀ s, p.Accepts c s → (allowed s ↔ allowed' s)) : p.Preferred allowed' c r where
  accepts := h.accepts
  isAllowed := (iff r h.accepts).mp h.isAllowed
  first := fun s hs ha => h.first s hs ((iff s hs).mpr ha)

/-- Where a match is complete, there is no other run. -/
theorem Preferred.complete (hc : p.IsAccept c) (h : allowed [c]) : p.Preferred allowed c [c] where
  accepts := .accept hc
  isAllowed := h
  first := by
    intro s hs _
    exact Or.inl (hs.eq_singleton hc)

/-- The preferred run of a successor, if no run of one before it is allowed. -/
theorem Preferred.cons (h : p.Preferred allowed' d r) (hd : d ∈ p.successors c)
    (step : ∀ e ∈ p.successors c, ∀ s, p.Accepts e s → (allowed' s ↔ allowed (c :: s)))
    (others : ∀ e ∈ p.successors c, e ≠ d →
      p.instrs[c.ip]? = some (.split d.ip e.ip) ∨ ∀ s, p.Accepts e s → ¬ allowed' s) :
    p.Preferred allowed c (c :: r) where
  accepts := .step hd h.accepts
  isAllowed := (step d hd r h.accepts).mp h.isAllowed
  first := by
    intro s hs ha
    cases hs with
    | accept hc =>
      rw [successors_of_isAccept hc] at hd
      simp at hd
    | @step _ e s he hs =>
      have ha' : allowed' s := (step e he s hs).mpr ha
      by_cases hed : e = d
      · subst hed
        rcases h.first s hs ha' with rfl | hb
        · exact Or.inl rfl
        · exact Or.inr (.cons hb)
      · rcases others e he hed with hsplit | hnone
        · -- The other successor is the secondary target, so the runs part here.
          obtain ⟨r', hr'⟩ := h.accepts.exists_cons
          obtain ⟨s', hs'⟩ := hs.exists_cons
          have hin := hd
          rw [successors_split hsplit] at hin he
          have hne : d.ip ≠ e.ip := by
            intro heq
            simp only [heq, List.mem_cons, List.not_mem_nil, or_false, or_self] at hin he
            exact hed (he.trans hin.symm)
          have hcur : d = ⟨d.ip, c.cur⟩ ∧ e = ⟨e.ip, c.cur⟩ := by
            simp only [List.mem_cons, List.not_mem_nil, or_false] at hin he
            rcases hin with h₁ | h₁ <;> rcases he with h₂ | h₂ <;> rw [h₁, h₂] <;> exact ⟨rfl, rfl⟩
          rw [hr', hs', hcur.1, hcur.2]
          exact Or.inr (.split hsplit hne)
        · exact absurd ha' (hnone s hs)

/-! ## Outcomes of several ways -/

namespace Outcome

theorem complete_inv (h : p.Outcome allowed (.complete slots :: ways) outcome) :
    outcome = some slots := by
  cases h
  rfl

/-- The first of several ways may be judged apart from the others. -/
theorem append (h : p.Outcome allowed' (ways ++ ways') outcome) {others : List Pending}
    (iff : ∀ c slots, .follow c slots ∈ ways → ∀ r, p.Accepts c r → (allowed' r ↔ allowed r))
    (rest : ∀ o, p.Outcome allowed' ways' o → p.Outcome allowed others o) :
    p.Outcome allowed (ways ++ others) outcome := by
  induction ways with
  | nil => exact rest _ h
  | cons way ways ih =>
    cases h with
    | complete => exact .complete
    | run h =>
      exact .run (h.congr (iff _ _ List.mem_cons_self))
    | skip h hr =>
      refine .skip (fun r hr ha => h r hr ((iff _ _ List.mem_cons_self r hr).mpr ha)) ?_
      exact ih hr fun c slots hc => iff c slots (List.mem_cons_of_mem _ hc)

theorem congr (h : p.Outcome allowed' ways outcome)
    (iff : ∀ c slots, .follow c slots ∈ ways → ∀ r, p.Accepts c r → (allowed' r ↔ allowed r)) :
    p.Outcome allowed ways outcome := by
  rw [← List.append_nil ways] at h ⊢
  refine h.append iff ?_
  intro o ho
  cases ho
  exact .nil

/-- A complete match cuts off the ways behind it. -/
theorem append_complete (h : p.Outcome allowed (ways ++ [.complete slots]) outcome) :
    p.Outcome allowed (ways ++ .complete slots :: ways') outcome := by
  refine h.append (fun _ _ _ _ _ => Iff.rfl) ?_
  intro o ho
  rw [complete_inv ho]
  exact .complete

/-- Ways without a run make no difference. -/
theorem append_left_of_forall_not (h : p.Outcome allowed ways' outcome)
    (none : ∀ way ∈ ways, ∃ c slots, way = .follow c slots ∧
      ∀ r, p.Accepts c r → ¬ allowed r) : p.Outcome allowed (ways ++ ways') outcome := by
  induction ways with
  | nil => exact h
  | cons way ways ih =>
    obtain ⟨c, slots, rfl, hc⟩ := none way List.mem_cons_self
    exact .skip hc (ih fun w hw => none w (List.mem_cons_of_mem _ hw))

/-- Ways may be replaced behind others. -/
theorem append_congr (h : p.Outcome allowed (ways ++ ways') outcome) {ways'' : List Pending}
    (replace : ∀ o, p.Outcome allowed ways' o → p.Outcome allowed ways'' o) :
    p.Outcome allowed (ways ++ ways'') outcome := by
  induction ways generalizing outcome with
  | nil => exact replace outcome h
  | cons way ways ih =>
    rw [List.cons_append] at h ⊢
    cases h with
    | complete => exact .complete
    | run h => exact .run h
    | skip hnone h => exact .skip hnone (ih h)

theorem size_slots {width : Nat} (h : p.Outcome allowed ways outcome)
    (size : ∀ way ∈ ways, way.slots.size = width) : ∀ s, outcome = some s → s.size = width := by
  induction h with
  | nil => simp
  | complete =>
    rintro s ⟨⟩
    exact size _ List.mem_cons_self
  | run _ =>
    rintro s ⟨⟩
    rw [size_recorded]
    exact size _ List.mem_cons_self
  | skip _ _ ih => exact ih fun w hw => size w (List.mem_cons_of_mem _ hw)

theorem ne_none_of_mem_complete (h : p.Outcome allowed ways outcome)
    (mem : .complete slots ∈ ways) : outcome ≠ none := by
  induction h with
  | nil => simp at mem
  | complete => simp
  | run _ => simp
  | skip _ _ ih =>
    refine ih ?_
    simpa using mem

/-! ## One step on -/

section

variable (step : ∀ d ∈ p.successors c, ∀ r, p.Accepts d r → (allowed' r ↔ allowed (c :: r)))
  (skipped : (∀ r, p.Accepts c r → ¬ allowed r) →
    ∀ d r, p.Accepts d r → (allowed' r ↔ allowed r))
include step skipped

/-- If no way on is left, the configuration leads nowhere and the other ways decide. -/
theorem of_successors_none (hc : ¬ p.IsAccept c)
    (hnone : ∀ d ∈ p.successors c, ∀ r, p.Accepts d r → ¬ allowed' r)
    (h : p.Outcome allowed' ways outcome) :
    p.Outcome allowed (.follow c slots :: ways) outcome := by
  have none : ∀ r, p.Accepts c r → ¬ allowed r := by
    intro r hr ha
    obtain ⟨d, t, rfl, hd, ht⟩ := hr.exists_step hc
    exact hnone d hd t ht ((step d hd t ht).mpr ha)
  exact .skip none (h.congr fun d _ _ r hr => skipped none d r hr)

theorem of_successors_singleton (hc : ¬ p.IsAccept c) (hd : p.successors c = [d])
    (h : p.Outcome allowed' (.follow d (p.recordAt c slots) :: ways) outcome) :
    p.Outcome allowed (.follow c slots :: ways) outcome := by
  cases h with
  | run h =>
    rw [← recorded_cons]
    refine .run (h.cons (by rw [hd]; exact List.mem_cons_self) step ?_)
    intro e he hne
    rw [hd, List.mem_singleton] at he
    exact absurd he hne
  | skip hno h =>
    refine of_successors_none step skipped hc ?_ h
    intro e he
    rw [hd, List.mem_singleton] at he
    rw [he]
    exact hno

theorem of_successors_split {primary secondary : Nat} (hc : ¬ p.IsAccept c)
    (hi : p.instrs[c.ip]? = some (.split primary secondary))
    (h : p.Outcome allowed' (.follow ⟨primary, c.cur⟩ (p.recordAt c slots) ::
      .follow ⟨secondary, c.cur⟩ (p.recordAt c slots) :: ways) outcome) :
    p.Outcome allowed (.follow c slots :: ways) outcome := by
  have hmem : ∀ e, e ∈ p.successors c ↔ e = ⟨primary, c.cur⟩ ∨ e = ⟨secondary, c.cur⟩ := by
    intro e
    rw [successors_split hi, List.mem_cons, List.mem_singleton]
  cases h with
  | run h =>
    rw [← recorded_cons]
    refine .run (h.cons ((hmem _).mpr (Or.inl rfl)) step ?_)
    intro e he hne
    rcases (hmem e).mp he with rfl | rfl
    · exact absurd rfl hne
    · exact Or.inl hi
  | skip hno h =>
    cases h with
    | run h =>
      -- The primary target leads nowhere, so a run over the secondary one is the first.
      rw [← recorded_cons]
      refine .run (h.cons ((hmem _).mpr (Or.inr rfl)) step ?_)
      intro e he hne
      rcases (hmem e).mp he with rfl | rfl
      · exact Or.inr hno
      · exact absurd rfl hne
    | skip hno' h =>
      refine of_successors_none step skipped hc ?_ h
      intro e he
      rcases (hmem e).mp he with rfl | rfl
      · exact hno
      · exact hno'

/-- **A way may be followed one step on.** -/
theorem of_expand (base : p.IsAccept c → allowed [c])
    (h : p.Outcome allowed' (p.expand c slots ++ ways) outcome) :
    p.Outcome allowed (.follow c slots :: ways) outcome := by
  unfold expand at h
  split at h
  · next hc =>
    rw [complete_inv h]
    have hslots : p.recorded [c] slots = slots := by
      rw [recorded_cons, recorded_nil]
      exact recordAt_of_instr hc (by simp)
    have hrun : p.Outcome allowed (.follow c slots :: ways) (some (p.recorded [c] slots)) :=
      .run (.complete hc (base hc))
    rwa [hslots] at hrun
  · next hc =>
    rcases successors_cases p c with ⟨primary, secondary, hi⟩ | hnone | ⟨d, hd⟩
    · rw [successors_split hi] at h
      exact of_successors_split step skipped hc hi h
    · rw [hnone] at h
      exact of_successors_none step skipped hc (by simp [hnone]) h
    · rw [hd] at h
      exact of_successors_singleton step skipped hc hd h

end

end Outcome

/-! ## Fresh runs -/

theorem fresh_cons_iff (hc : ¬ visited c) :
    Fresh (fun x => visited x ∨ x = c) r ↔ Fresh visited (c :: r) := by
  unfold Fresh
  rw [List.nodup_cons]
  constructor
  · rintro ⟨hn, hv⟩
    refine ⟨⟨fun hm => hv c hm (Or.inr rfl), hn⟩, ?_⟩
    intro x hx
    rcases List.mem_cons.mp hx with rfl | hx
    · exact hc
    · intro h
      exact hv x hx (Or.inl h)
  · rintro ⟨⟨hm, hn⟩, hv⟩
    refine ⟨hn, ?_⟩
    intro x hx
    rintro (h | rfl)
    · exact hv x (List.mem_cons_of_mem _ hx) h
    · exact hm hx

/-- If no fresh run leads from a configuration, no fresh run passes it. -/
theorem fresh_iff_of_forall_not (none : ∀ r, p.Accepts c r → ¬ Fresh visited r) (hc : ¬ visited c)
    (hr : p.Accepts d r) : Fresh (fun x => visited x ∨ x = c) r ↔ Fresh visited r := by
  constructor
  · rintro ⟨hn, hv⟩
    refine ⟨hn, ?_⟩
    intro x hx h
    exact hv x hx (Or.inl h)
  · rintro ⟨hn, hv⟩
    refine ⟨hn, ?_⟩
    intro x hx
    rintro (h | rfl)
    · exact hv x hx h
    · obtain ⟨pre, post, rfl, hpost⟩ := hr.suffix hx
      refine none post hpost ⟨(List.nodup_append.mp hn).2.1, ?_⟩
      intro y hy
      exact hv y (List.mem_append_right _ hy)

/-- A way that begins in a new configuration may be followed one step on, if the configuration
counts as visited from then on. -/
theorem Outcome.of_expand_fresh (hc : ¬ visited c)
    (h : p.Outcome (Fresh fun x => visited x ∨ x = c) (p.expand c slots ++ ways) outcome) :
    p.Outcome (Fresh visited) (.follow c slots :: ways) outcome := by
  refine .of_expand (fun _ _ _ _ => fresh_cons_iff hc)
    (fun none _ _ hr => fresh_iff_of_forall_not none hc hr) (fun _ => ?_) h
  refine ⟨List.nodup_singleton c, ?_⟩
  intro x hx
  rw [List.mem_singleton.mp hx]
  exact hc

theorem exists_outcome_of_forall
    (h : ∀ c slots, .follow c slots ∈ ways →
      (∃ r, p.Preferred allowed c r) ∨ ∀ r, p.Accepts c r → ¬ allowed r) :
    ∃ o, p.Outcome allowed ways o := by
  induction ways with
  | nil => exact ⟨none, .nil⟩
  | cons way ways ih =>
    cases way with
    | complete slots => exact ⟨some slots, .complete⟩
    | follow c slots =>
      rcases h c slots List.mem_cons_self with ⟨r, hr⟩ | hnone
      · exact ⟨_, .run hr⟩
      · obtain ⟨o, ho⟩ := ih fun c slots hc => h c slots (List.mem_cons_of_mem _ hc)
        exact ⟨o, .skip hnone ho⟩

/-- Where the lengths of fresh runs are bounded, one is preferred unless there is none. -/
theorem exists_preferred_of_length_le (n : Nat) (visited : Config → Prop) (c : Config)
    (bound : ∀ r, p.Accepts c r → Fresh visited r → r.length ≤ n) :
    (∃ r, p.Preferred (Fresh visited) c r) ∨ ∀ r, p.Accepts c r → ¬ Fresh visited r := by
  induction n generalizing visited c with
  | zero =>
    refine Or.inr ?_
    intro r hr hf
    obtain ⟨t, rfl⟩ := hr.exists_cons
    have := bound _ hr hf
    simp at this
  | succ n ih =>
    by_cases hc : visited c
    · exact Or.inr fun r hr hf => hf.2 c hr.mem_self hc
    · -- What is visited from here on leaves room for one configuration less.
      have hways : ∃ o, p.Outcome (Fresh fun x => visited x ∨ x = c) (p.expand c #[] ++ []) o := by
        refine exists_outcome_of_forall ?_
        intro d slots hd
        rw [List.append_nil] at hd
        unfold expand at hd
        split at hd
        · simp at hd
        · obtain ⟨e, he, heq⟩ := List.mem_map.mp hd
          obtain ⟨rfl, -⟩ := Pending.follow.inj heq
          refine ih _ _ ?_
          intro r hr hf
          have := bound (c :: r) (.step he hr) ((fresh_cons_iff hc).mp hf)
          simpa using this
      obtain ⟨o, ho⟩ := hways
      cases ho.of_expand_fresh hc with
      | run h => exact Or.inl ⟨_, h⟩
      | skip h _ => exact Or.inr h

/-- A run that is never twice in a configuration is no longer than there are configurations. -/
theorem Accepts.length_le_of_nodup (h : p.Accepts c r) (hn : r.Nodup) :
    r.length ≤ (c.cur.onward.flatMap fun cur =>
      (List.range p.instrs.size).map fun ip => Config.mk ip cur).length := by
  refine (hn.subperm fun x hx => ?_).length_le
  refine List.mem_flatMap.mpr ⟨x.cur, h.cur_mem_onward x hx, ?_⟩
  exact List.mem_map.mpr ⟨x.ip, List.mem_range.mpr (h.ip_lt_size x hx), rfl⟩

/-- **Of the fresh runs from a configuration one is preferred, unless there is none.** -/
theorem exists_preferred_fresh (p : Program) (visited : Config → Prop) (c : Config) :
    (∃ r, p.Preferred (Fresh visited) c r) ∨ ∀ r, p.Accepts c r → ¬ Fresh visited r :=
  exists_preferred_of_length_le _ visited c fun _ hr hf => hr.length_le_of_nodup hf.1

theorem exists_outcome_fresh (p : Program) (visited : Config → Prop) (ways : List Pending) :
    ∃ o, p.Outcome (Fresh visited) ways o :=
  exists_outcome_of_forall fun c _ _ => p.exists_preferred_fresh visited c

end Program

end LinearRegex
