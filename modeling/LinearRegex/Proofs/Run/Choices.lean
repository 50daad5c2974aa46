import LinearRegex.Proofs.Run.Outcome

/-!
# Runs that make no choice twice

A run only has a choice at a split: what it does elsewhere is settled. So if it comes back to a
configuration, it comes back to one where it had a choice, and to be never twice in a configuration
is the same as to make no choice twice in one place.

Main statement: `distinct_nil_iff`.
-/

namespace LinearRegex

/-- Whether there are two ways on from an instruction. -/
def Instr.isSplit : Instr → Bool
  | .split _ _ => true
  | .accept => false
  | .char _ => false
  | .foldedChar _ => false
  | .bracket _ => false
  | .any => false
  | .anyButNewline => false
  | .assertion _ => false
  | .jump _ => false
  | .save _ => false

theorem Instr.isSplit_of_waits {i : Instr} (h : i.waits = true) : i.isSplit = false := by
  cases i with
  | split _ _ => simp [waits] at h
  | _ => rfl

namespace Program

variable {p : Program} {a b i : Nat} {c d : Config} {r s : List Config} {made : List Nat}
variable {cur next : Cursor}

/-- Whether there is a choice at an instruction. -/
def isChoice (p : Program) (ip : Nat) : Bool := p.instrs[ip]?.any Instr.isSplit

/-- The number of choices before an instruction, which is the number of the choice that is there. -/
def choicesBefore (p : Program) : Nat → Nat
  | 0 => 0
  | ip + 1 => choicesBefore p ip + if p.isChoice ip then 1 else 0

/-- Whether a run makes no choice twice in one place, and at `cur` none that has been made. -/
def Distinct (p : Program) (made : List Nat) (cur : Cursor) (r : List Config) : Prop :=
  r.Pairwise (fun x y => p.isChoice x.ip = true → x ≠ y) ∧
    ∀ x ∈ r, p.isChoice x.ip = true → x.cur = cur → p.choicesBefore x.ip ∉ made

/-! ## Choices and their numbers -/

theorem isChoice_of_instr {ins : Instr} (h : p.instrs[i]? = some ins) :
    p.isChoice i = ins.isSplit := by
  simp only [isChoice, h, Option.any_some]

theorem choicesBefore_succ {ins : Instr} (h : p.instrs[i]? = some ins) :
    p.choicesBefore (i + 1) = p.choicesBefore i + if ins.isSplit then 1 else 0 := by
  rw [choicesBefore, isChoice_of_instr h]

theorem choicesBefore_mono (h : a ≤ b) : p.choicesBefore a ≤ p.choicesBefore b := by
  induction h with
  | refl => exact Nat.le_refl _
  | step _ ih => exact Nat.le_trans ih (Nat.le_add_right _ _)

theorem choicesBefore_lt (ha : p.isChoice a = true) (h : a < b) :
    p.choicesBefore a < p.choicesBefore b := by
  have hnext : p.choicesBefore (a + 1) = p.choicesBefore a + 1 := by
    rw [choicesBefore, if_pos ha]
  have hle : p.choicesBefore (a + 1) ≤ p.choicesBefore b := choicesBefore_mono h
  omega

/-- No two choices have the same number. -/
theorem eq_of_choicesBefore_eq (ha : p.isChoice a = true) (hb : p.isChoice b = true)
    (h : p.choicesBefore a = p.choicesBefore b) : a = b := by
  rcases Nat.lt_trichotomy a b with hlt | heq | hgt
  · have := choicesBefore_lt ha hlt
    omega
  · exact heq
  · have := choicesBefore_lt hb hgt
    omega

/-! ## Coming back is choosing twice -/

/-- Runs part at a choice. -/
theorem Before.exists_choice (h : p.Before r s) :
    ∃ (k : Nat) (x : Config), p.isChoice x.ip = true ∧ r[k]? = some x ∧ s[k]? = some x := by
  induction h with
  | @split c _ _ _ _ h _ => exact ⟨0, c, isChoice_of_instr h, rfl, rfl⟩
  | cons _ ih =>
    obtain ⟨k, x, hx, hr, hs⟩ := ih
    exact ⟨k + 1, x, hx, hr, hs⟩

/-- A run that comes back to where it began makes some choice twice: else it would go round for
ever. -/
theorem Accepts.exists_choice_twice (hd : d ∈ p.successors c) (hr : p.Accepts d r) (hc : c ∈ r) :
    ∃ (k m : Nat) (x : Config), k < m ∧ p.isChoice x.ip = true ∧ (c :: r)[k]? = some x ∧
      (c :: r)[m]? = some x := by
  have h : p.Accepts c (c :: r) := .step hd hr
  obtain ⟨pre, post, rfl, hpost⟩ := hr.suffix hc
  -- What is left of the run from there on is another run, and both part at some choice.
  have hparts : ∃ (k : Nat) (x : Config), p.isChoice x.ip = true ∧
      (c :: (pre ++ post))[k]? = some x ∧ post[k]? = some x := by
    rcases h.trichotomy hpost with heq | hb | hb
    · have := congrArg List.length heq
      simp only [List.length_cons, List.length_append] at this
      omega
    · exact hb.exists_choice
    · obtain ⟨k, x, hx, hpost, hr⟩ := hb.exists_choice
      exact ⟨k, x, hx, hr, hpost⟩
  obtain ⟨k, x, hx, hr, hpost⟩ := hparts
  refine ⟨k, (c :: pre).length + k, x, by simp only [List.length_cons]; omega, hx, hr, ?_⟩
  rw [← List.cons_append, List.getElem?_append_right (Nat.le_add_right _ _),
    Nat.add_sub_cancel_left]
  exact hpost

/-- **A run makes no choice twice just when it is never twice in a configuration.** -/
theorem distinct_nil_iff (h : p.Accepts c r) : p.Distinct [] cur r ↔ r.Nodup := by
  constructor
  · rintro ⟨hpairs, -⟩
    induction h with
    | accept _ => exact List.nodup_singleton _
    | @step c d r hd hr ih =>
      refine List.nodup_cons.mpr ⟨fun hc => ?_, ih (List.pairwise_cons.mp hpairs).2⟩
      obtain ⟨k, m, x, hlt, hx, hk, hm⟩ := Accepts.exists_choice_twice hd hr hc
      obtain ⟨hk', hk⟩ := List.getElem?_eq_some_iff.mp hk
      obtain ⟨hm', hm⟩ := List.getElem?_eq_some_iff.mp hm
      have hne := List.pairwise_iff_getElem.mp hpairs k m hk' hm' hlt
      rw [hk, hm] at hne
      exact hne hx rfl
  · intro hn
    refine ⟨hn.imp ?_, by simp⟩
    intro x y hne _
    exact hne

/-! ## One step on -/

theorem distinct_cons_of_not_choice (hc : p.isChoice c.ip = false) :
    p.Distinct made cur (c :: r) ↔ p.Distinct made cur r := by
  simp [Distinct, hc]

/-- Behind a choice it counts as made. -/
theorem distinct_cons_of_choice (hc : p.isChoice c.ip = true) (hcur : c.cur = cur) :
    p.Distinct made cur (c :: r) ↔
      p.choicesBefore c.ip ∉ made ∧ p.Distinct (p.choicesBefore c.ip :: made) cur r := by
  unfold Distinct
  rw [List.pairwise_cons, List.forall_mem_cons]
  constructor
  · rintro ⟨⟨hne, hpairs⟩, hnew, hmade⟩
    refine ⟨hnew hc hcur, hpairs, fun x hx hchoice hxcur hmem => ?_⟩
    rcases List.mem_cons.mp hmem with heq | hmem
    · have hip : c.ip = x.ip := eq_of_choicesBefore_eq hc hchoice heq.symm
      exact hne x hx hc (by cases c; cases x; simp_all)
    · exact hmade x hx hchoice hxcur hmem
  · rintro ⟨hnew, hpairs, hmade⟩
    refine ⟨⟨fun x hx _ heq => ?_, hpairs⟩, fun _ _ => hnew, fun x hx hchoice hxcur hmem => ?_⟩
    · subst heq
      exact hmade c hx hc hcur List.mem_cons_self
    · exact hmade x hx hchoice hxcur (List.mem_cons_of_mem _ hmem)

/-- Behind a character all choices can be made anew. -/
theorem distinct_of_rest_lt (h : p.Accepts ⟨a, next⟩ r) (hlt : next.rest.length < cur.rest.length) :
    p.Distinct made cur r ↔ p.Distinct [] next r := by
  have hcur : ∀ x ∈ r, x.cur ≠ cur := by
    rintro x hx rfl
    have hle : x.cur.rest.length ≤ next.rest.length := h.rest_length_le x hx
    omega
  constructor
  · rintro ⟨hpairs, -⟩
    exact ⟨hpairs, by simp⟩
  · rintro ⟨hpairs, -⟩
    exact ⟨hpairs, fun x hx _ hxcur => absurd hxcur (hcur x hx)⟩

end Program

end LinearRegex
