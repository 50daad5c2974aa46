import LinearRegex.Proofs.Pattern.Written
import LinearRegex.Proofs.Program.Emission
import LinearRegex.Proofs.Run.Basic

/-!
# Runs match what the pattern denotes

A run that enters the code of a piece leaves it behind a match of the piece, and every match of the
piece lets a run pass through its code. Loops whose bodies take no character need no special care
here, as runs are free to go round them.

Main statements: `passes_of_accepts` and `reaches_of_matches` for pieces, and for a whole program
`Compiled.matches_of_accepts` and `Compiled.exists_accepts_iff`.
-/

namespace LinearRegex

namespace Program

variable {p : Program} {n : Node} {ns : List Node} {a b c : Nat} {i j : Cursor} {r : List Config}
variable {R S T : Cursor → Cursor → Prop}

/-- Whether all that is recorded on the way belongs to groups other than group 0. -/
def SavesGroups (p : Program) (r : List Config) : Prop :=
  ∀ x ∈ r, ∀ slot, p.instrs[x.ip]? = some (.save slot) → 2 ≤ slot

/-- A run from a place of the text comes to an instruction later, at a place that is related. -/
def Passes (p : Program) (R : Cursor → Cursor → Prop) (b : Nat) (i : Cursor) (r : List Config) :
    Prop :=
  ∃ j pre post, r = pre ++ post ∧ p.Accepts ⟨b, j⟩ post ∧ R i j ∧ p.SavesGroups pre

/-- What belongs to other groups leaves the slots of group 0 alone. -/
theorem SavesGroups.getElem?_recorded {slots : Slots} {k : Nat} (h : p.SavesGroups r) (hk : k < 2) :
    (p.recorded r slots)[k]? = slots[k]? := by
  induction r generalizing slots with
  | nil => rfl
  | cons x r ih =>
    have hx := h x List.mem_cons_self
    rw [recorded_cons, ih fun y hy => h y (List.mem_cons_of_mem _ hy)]
    unfold recordAt
    split
    · next slot hslot =>
      have := hx slot hslot
      exact Array.getElem?_setIfInBounds_ne (by omega)
    · rfl

/-- Whether some run accepts. -/
def Reaches (p : Program) (c : Config) : Prop := ∃ r, p.Accepts c r

theorem Reaches.step {c d : Config} (h : p.Reaches d) (hd : d ∈ p.successors c) : p.Reaches c := by
  obtain ⟨r, hr⟩ := h
  exact ⟨c :: r, .step hd hr⟩

/-! ## Passing through -/

namespace Passes

theorem refl (h : p.Accepts ⟨b, i⟩ r) : p.Passes Eq b i r :=
  ⟨i, [], r, rfl, h, rfl, by simp [SavesGroups]⟩

theorem mono (h : p.Passes R b i r) (hR : ∀ j, R i j → S i j) : p.Passes S b i r := by
  obtain ⟨j, pre, post, heq, hpost, hj, hsaves⟩ := h
  exact ⟨j, pre, post, heq, hpost, hR j hj, hsaves⟩

/-- What is left of a run behind one piece may pass the next. -/
theorem trans (h : p.Passes R b i r)
    (h' : ∀ j s, s.length ≤ r.length → p.Accepts ⟨b, j⟩ s → p.Passes S c j s)
    (hT : ∀ j k, R i j → S j k → T i k) : p.Passes T c i r := by
  obtain ⟨j, pre, post, rfl, hpost, hj, hsaves⟩ := h
  obtain ⟨k, pre', post', rfl, hpost', hk, hsaves'⟩ := h' j post (by simp) hpost
  refine ⟨k, pre ++ pre', post', (List.append_assoc _ _ _).symm, hpost', hT j k hj hk, ?_⟩
  intro x hx
  rcases List.mem_append.mp hx with hx | hx
  · exact hsaves x hx
  · exact hsaves' x hx

/-- What a run passes after its first step it passes from its beginning. -/
theorem cons {i' : Cursor} (h : p.Passes R b i r)
    (hsave : ∀ slot, p.instrs[a]? = some (.save slot) → 2 ≤ slot)
    (hS : ∀ j, R i j → S i' j) : p.Passes S b i' (⟨a, i'⟩ :: r) := by
  obtain ⟨j, pre, post, rfl, hpost, hj, hsaves⟩ := h
  refine ⟨j, ⟨a, i'⟩ :: pre, post, rfl, hpost, hS j hj, ?_⟩
  intro y hy
  rcases List.mem_cons.mp hy with rfl | hy
  · exact hsave
  · exact hsaves y hy

end Passes

/-! ## Single instructions -/

/-- A run from an instruction other than the accepting one goes on from a successor. -/
theorem exists_step_of_instr {ins : Instr} (hi : p.instrs[a]? = some ins) (hne : ins ≠ .accept)
    (h : p.Accepts ⟨a, i⟩ r) :
    ∃ d t, r = ⟨a, i⟩ :: t ∧ d ∈ p.successors ⟨a, i⟩ ∧ p.Accepts d t :=
  h.exists_step fun ha => hne (Option.some.inj (hi.symm.trans ha))

theorem save_le_of_instr {ins : Instr} (hi : p.instrs[a]? = some ins)
    (hne : ∀ slot, ins ≠ .save slot) : ∀ slot, p.instrs[a]? = some (.save slot) → 2 ≤ slot :=
  fun slot hslot => absurd (Option.some.inj (hi.symm.trans hslot)) (hne slot)

theorem mem_successors_of_waits {ins : Instr} {accepts : Char → Bool}
    (hi : p.instrs[a]? = some ins) (hw : ins.waits = true)
    (ht : ∀ ch, p.takes ch ins = accepts ch) {d : Config} :
    d ∈ p.successors ⟨a, i⟩ ↔ i.Takes accepts d.cur ∧ d.ip = a + 1 := by
  have hcfg : p.instrs[(⟨a, i⟩ : Config).ip]? = some ins := hi
  rw [successors_of_waits hcfg hw]
  unfold Cursor.Takes
  cases hafter : i.after with
  | none => simp
  | some ch =>
    simp only [Option.any_some, ht, Option.some.injEq]
    split
    · next hacc =>
      rw [List.mem_singleton]
      constructor
      · rintro rfl
        exact ⟨⟨ch, rfl, hacc, rfl⟩, rfl⟩
      · rintro ⟨⟨_, rfl, -, hcur⟩, hip⟩
        rw [← hcur, ← hip]
    · next hacc =>
      simp only [List.not_mem_nil, false_iff, not_and]
      rintro ⟨_, rfl, hacc', -⟩
      exact absurd hacc' hacc

/-- A run passes an instruction that waits for a character by taking one. -/
theorem passes_take {ins : Instr} {accepts : Char → Bool} (hi : p.instrs[a]? = some ins)
    (hw : ins.waits = true) (hne : ins ≠ .accept) (ht : ∀ ch, p.takes ch ins = accepts ch)
    (h : p.Accepts ⟨a, i⟩ r) : p.Passes (Cursor.Takes accepts) (a + 1) i r := by
  obtain ⟨⟨ip, cur⟩, t, rfl, hd, ht'⟩ := exists_step_of_instr hi hne h
  obtain ⟨htakes, hip⟩ := (mem_successors_of_waits hi hw ht).mp hd
  obtain rfl : ip = a + 1 := hip
  refine (Passes.refl ht').cons (save_le_of_instr hi ?_) ?_
  · rintro slot rfl
    simp [Instr.waits] at hw
  · rintro j rfl
    exact htakes

/-- A run passes an assertion where it holds, and stays there. -/
theorem passes_assertion {s : Assertion} (hi : p.instrs[a]? = some (.assertion s))
    (h : p.Accepts ⟨a, i⟩ r) : p.Passes (fun i j => s.holds i = true ∧ i = j) (a + 1) i r := by
  obtain ⟨d, t, rfl, hd, ht⟩ := exists_step_of_instr hi (by simp) h
  rw [successors_assertion hi] at hd
  split at hd
  · next hs =>
    rw [List.mem_singleton] at hd
    subst hd
    refine (Passes.refl ht).cons (save_le_of_instr hi (by simp)) ?_
    intro j hj
    exact ⟨hs, hj⟩
  · simp at hd

/-- A run passes a group by passing what is in it, and records both ends on the way. -/
theorem passes_group {index last : Nat} (hindex : 0 < index)
    (hopen : p.instrs[a]? = some (.save (2 * index)))
    (hclose : p.instrs[last]? = some (.save (2 * index + 1))) (h : p.Accepts ⟨a, i⟩ r)
    (hbody : ∀ t, p.Accepts ⟨a + 1, i⟩ t → p.Passes R last i t) : p.Passes R (last + 1) i r := by
  have hsave : ∀ {x k slot : Nat}, p.instrs[x]? = some (.save k) → 2 ≤ k →
      p.instrs[x]? = some (.save slot) → 2 ≤ slot := by
    intro x k slot hk hle hslot
    obtain rfl : k = slot := Instr.save.inj (Option.some.inj (hk.symm.trans hslot))
    exact hle
  obtain ⟨t, rfl, ht⟩ := h.exists_tail (successors_save hopen)
  have hpass : p.Passes R (last + 1) i t := by
    refine (hbody t ht).trans (S := Eq) (fun j s _ hs => ?_) fun j k hj hk => hk ▸ hj
    obtain ⟨u, rfl, hu⟩ := hs.exists_tail (successors_save hclose)
    exact (Passes.refl hu).cons (fun slot => hsave hclose (by omega)) fun k hk => hk
  exact hpass.cons (fun slot => hsave hopen (by omega)) fun j hj => hj

theorem reaches_take {ins : Instr} {accepts : Char → Bool} (hi : p.instrs[a]? = some ins)
    (hw : ins.waits = true) (ht : ∀ ch, p.takes ch ins = accepts ch) (htakes : i.Takes accepts j)
    (h : p.Reaches ⟨a + 1, j⟩) : p.Reaches ⟨a, i⟩ :=
  h.step ((mem_successors_of_waits hi hw ht).mpr ⟨htakes, rfl⟩)

theorem mem_successors_loopSplit {greedy : Bool} {exit head : Nat}
    (hi : p.instrs[head]? = some (loopSplit greedy exit head)) {d : Config} :
    d ∈ p.successors ⟨head, i⟩ ↔ d = ⟨head + 1, i⟩ ∨ d = ⟨exit, i⟩ := by
  unfold loopSplit at hi
  cases greedy with
  | true =>
    rw [successors_split hi]
    simp
  | false =>
    rw [successors_split hi]
    simp [or_comm]

theorem loopSplit_ne (greedy : Bool) (exit head : Nat) :
    loopSplit greedy exit head ≠ .accept ∧ ∀ slot, loopSplit greedy exit head ≠ .save slot := by
  unfold loopSplit
  cases greedy <;> simp

/-- A run from the split at the head of a loop's body goes into the body or to the exit. -/
theorem accepts_loopSplit {greedy : Bool} {exit head : Nat}
    (hi : p.instrs[head]? = some (loopSplit greedy exit head)) (h : p.Accepts ⟨head, i⟩ r) :
    ∃ t, r = ⟨head, i⟩ :: t ∧ (p.Accepts ⟨head + 1, i⟩ t ∨ p.Accepts ⟨exit, i⟩ t) := by
  obtain ⟨d, t, rfl, hd, ht⟩ := exists_step_of_instr hi (loopSplit_ne greedy exit head).1 h
  rcases (mem_successors_loopSplit hi).mp hd with rfl | rfl
  · exact ⟨t, rfl, Or.inl ht⟩
  · exact ⟨t, rfl, Or.inr ht⟩

/-! ## Loops -/

section

variable {H : Nat → Nat → Prop} {m : Nat} {greedy : Bool} {exit head back : Nat}

/-- How runs pass the code of a loop's body, wherever it stands. -/
def PassedBy (p : Program) (H : Nat → Nat → Prop) (R : Cursor → Cursor → Prop) : Prop :=
  ∀ a b i r, H a b → p.Accepts ⟨a, i⟩ r → p.Passes R b i r

theorem passes_iterate (hp : p.PassedBy H R) (hH : Iterate H m a b) (h : p.Accepts ⟨a, i⟩ r) :
    p.Passes (Iterate R m) b i r := by
  induction m generalizing a i r with
  | zero =>
    obtain rfl : a = b := hH
    exact Passes.refl h
  | succ m ih =>
    obtain ⟨c, hc, hH⟩ := hH
    exact (hp a c i r hc h).trans (fun j s _ hs => ih hH hs) fun j k hj hk => ⟨j, hj, hk⟩

/-- Optional iterations are passed with no more iterations than there are. -/
theorem passes_options (hp : p.PassedBy H R)
    (hH : p.code.HoldsOptions greedy exit H m head) (h : p.Accepts ⟨head, i⟩ r) :
    p.Passes (fun i j => ∃ k, k ≤ m ∧ Iterate R k i j) exit i r := by
  induction m generalizing head i r with
  | zero =>
    obtain rfl : head = exit := hH
    exact (Passes.refl h).mono fun j hj => ⟨0, Nat.le_refl 0, hj⟩
  | succ m ih =>
    obtain ⟨hsplit, next, hbody, hH⟩ := hH
    have hsplit : p.instrs[head]? = some (loopSplit greedy exit head) := hsplit
    obtain ⟨t, rfl, ht | ht⟩ := accepts_loopSplit hsplit h
    · have hpass := (hp _ _ _ _ hbody ht).trans (fun j s _ hs => ih hH hs)
        (T := fun i j => ∃ k, k ≤ m + 1 ∧ Iterate R k i j)
        fun j k hj ⟨l, hl, hk⟩ => ⟨l + 1, Nat.succ_le_succ hl, j, hj, hk⟩
      exact hpass.cons (save_le_of_instr hsplit (loopSplit_ne _ _ _).2) fun j hj => hj
    · refine (Passes.refl ht).cons (save_le_of_instr hsplit (loopSplit_ne _ _ _).2) ?_
      intro j hj
      exact ⟨0, Nat.zero_le _, hj⟩

/-- A loop without a bound is passed with some number of iterations. -/
theorem passes_loop (hp : p.PassedBy H R)
    (hsplit : p.instrs[head]? = some (loopSplit greedy exit head)) (hbody : H (head + 1) back)
    (hjump : p.instrs[back]? = some (.jump head)) (h : p.Accepts ⟨head, i⟩ r) :
    p.Passes (fun i j => ∃ k, Iterate R k i j) exit i r := by
  -- Each time round the loop takes something off the run.
  induction hlen : r.length using Nat.strongRecOn generalizing i r with
  | ind len ih =>
    obtain ⟨t, rfl, ht | ht⟩ := accepts_loopSplit hsplit h
    · have hpass : p.Passes (fun i j => ∃ k, Iterate R k i j) exit i t := by
        refine (hp _ _ _ _ hbody ht).trans (S := fun i j => ∃ k, Iterate R k i j)
          (fun j s hle hs => ?_) fun j k hj ⟨l, hk⟩ => ⟨l + 1, j, hj, hk⟩
        obtain ⟨rest, rfl, hrest⟩ := hs.exists_tail (successors_jump hjump)
        have hlt : rest.length < len := by
          simp only [List.length_cons] at hle hlen
          omega
        exact (ih _ hlt hrest rfl).cons (save_le_of_instr hjump (by simp)) fun k hk => hk
      exact hpass.cons (save_le_of_instr hsplit (loopSplit_ne _ _ _).2) fun j hj => hj
    · refine (Passes.refl ht).cons (save_le_of_instr hsplit (loopSplit_ne _ _ _).2) ?_
      intro j hj
      exact ⟨0, hj⟩

end

/-! ## Every run matches -/

mutual

/-- **A run passes the code of a piece by matching it.** -/
theorem passes_of_accepts : ∀ {n : Node} {a b : Nat} {i : Cursor} {r : List Config},
    n.WellFormed → p.code.Holds n a b → p.Accepts ⟨a, i⟩ r → p.Passes n.Matches b i r
  | .empty, a, b, i, r, _, hholds, h => by
    rw [Code.Holds] at hholds
    subst hholds
    refine (Passes.refl h).mono ?_
    intro j hj
    rwa [Node.Matches]
  | .char c ignoreCase, a, b, i, r, _, hholds, h => by
    rw [Code.Holds] at hholds
    obtain ⟨hi, rfl⟩ := hholds
    have hpass : p.Passes
        (Cursor.Takes fun d => if ignoreCase then CaseFold.fold d == c else d == c) (a + 1) i r := by
      cases ignoreCase with
      | true => exact passes_take hi rfl (by simp) (fun ch => rfl) h
      | false => exact passes_take hi rfl (by simp) (fun ch => rfl) h
    refine hpass.mono ?_
    intro j hj
    rwa [Node.Matches]
  | .any, a, b, i, r, _, hholds, h => by
    rw [Code.Holds] at hholds
    obtain ⟨hi, rfl⟩ := hholds
    refine (passes_take hi rfl (by simp) (fun ch => rfl) h).mono ?_
    intro j hj
    rwa [Node.Matches]
  | .anyButNewline, a, b, i, r, _, hholds, h => by
    rw [Code.Holds] at hholds
    obtain ⟨hi, rfl⟩ := hholds
    refine (passes_take hi rfl (by simp) (fun ch => rfl) h).mono ?_
    intro j hj
    rwa [Node.Matches]
  | .bracket br, a, b, i, r, _, hholds, h => by
    rw [Code.Holds] at hholds
    obtain ⟨index, hi, hbr, rfl⟩ := hholds
    have htakes : ∀ ch, p.takes ch (.bracket index) = br.accepts ch := by
      intro ch
      have hbr : p.brackets[index]? = some br := hbr
      simp only [takes, hbr, Option.any_some]
    refine (passes_take hi rfl (by simp) htakes h).mono ?_
    intro j hj
    rwa [Node.Matches]
  | .assertion s, a, b, i, r, _, hholds, h => by
    rw [Code.Holds] at hholds
    obtain ⟨hi, rfl⟩ := hholds
    refine (passes_assertion hi h).mono ?_
    intro j hj
    rwa [Node.Matches]
  | .cat nodes, a, b, i, r, hw, hholds, h => by
    rw [Code.Holds] at hholds
    refine (passesAll_of_accepts hw hholds h).mono ?_
    intro j hj
    rwa [Node.Matches]
  | .alt branches, a, b, i, r, hw, hholds, h => by
    rw [Code.Holds] at hholds
    refine (passesSome_of_accepts hw.1 hw.2 hholds h).mono ?_
    intro j hj
    rwa [Node.Matches]
  | .loop body ⟨min, none, greedy⟩, a, b, i, r, hw, hholds, h => by
    rw [Code.Holds] at hholds
    obtain ⟨head, back, hmin, hsplit, hbody, hjump, rfl⟩ := hholds
    have hp : p.PassedBy (p.code.Holds body) body.Matches :=
      fun _ _ _ _ hH hr => passes_of_accepts hw.2 hH hr
    refine (passes_iterate hp hmin h).trans
      (fun j s _ hs => passes_loop hp hsplit hbody hjump hs) ?_
    rintro j k hj ⟨l, hk⟩
    rw [Node.Matches]
    exact ⟨min + l, Nat.le_add_right _ _, by simp, hj.trans hk⟩
  | .loop body ⟨min, some max, greedy⟩, a, b, i, r, hw, hholds, h => by
    rw [Code.Holds] at hholds
    obtain ⟨head, hmin, hmore⟩ := hholds
    have hp : p.PassedBy (p.code.Holds body) body.Matches :=
      fun _ _ _ _ hH hr => passes_of_accepts hw.2 hH hr
    refine (passes_iterate hp hmin h).trans (fun j s _ hs => passes_options hp hmore hs) ?_
    rintro j k hj ⟨l, hl, hk⟩
    have hle : min ≤ max := hw.1 max rfl
    rw [Node.Matches]
    refine ⟨min + l, Nat.le_add_right _ _, ?_, hj.trans hk⟩
    rintro m ⟨⟩
    omega
  | .group body index name, a, b, i, r, hw, hholds, h => by
    rw [Code.Holds] at hholds
    obtain ⟨last, hopen, hbody, hclose, rfl⟩ := hholds
    have hpass : p.Passes body.Matches (last + 1) i r :=
      passes_group hw.1 hopen hclose h fun t ht => passes_of_accepts hw.2 hbody ht
    refine hpass.mono ?_
    intro j hj
    rwa [Node.Matches]

theorem passesAll_of_accepts : ∀ {ns : List Node} {a b : Nat} {i : Cursor} {r : List Config},
    Node.AllWellFormed ns → p.code.HoldsAll ns a b → p.Accepts ⟨a, i⟩ r →
    p.Passes (Node.MatchesAll ns) b i r
  | [], a, b, i, r, _, hholds, h => by
    rw [Code.HoldsAll] at hholds
    subst hholds
    refine (Passes.refl h).mono ?_
    intro j hj
    rwa [Node.MatchesAll]
  | n :: ns, a, b, i, r, hw, hholds, h => by
    rw [Code.HoldsAll] at hholds
    obtain ⟨m, hm, hholds⟩ := hholds
    refine (passes_of_accepts hw.1 hm h).trans
      (fun j s _ hs => passesAll_of_accepts hw.2 hholds hs) fun j k hj hk => ?_
    rw [Node.MatchesAll]
    exact ⟨j, hj, hk⟩

theorem passesSome_of_accepts : ∀ {ns : List Node} {a b : Nat} {i : Cursor} {r : List Config},
    ns ≠ [] → Node.AllWellFormed ns → p.code.HoldsBranches ns a b → p.Accepts ⟨a, i⟩ r →
    p.Passes (Node.MatchesSome ns) b i r
  | [], _, _, _, _, hne, _, _, _ => absurd rfl hne
  | [n], a, b, i, r, _, hw, hholds, h => by
    rw [Code.HoldsBranches] at hholds
    refine (passes_of_accepts hw.1 hholds h).mono ?_
    intro j hj
    rw [Node.MatchesSome]
    exact Or.inl hj
  | n :: m :: ns, a, b, i, r, _, hw, hholds, h => by
    rw [Code.HoldsBranches] at hholds
    obtain ⟨last, hsplit, hn, hjump, hholds⟩ := hholds
    obtain ⟨d, t, rfl, hd, ht⟩ := exists_step_of_instr hsplit (by simp) h
    rw [successors_split hsplit] at hd
    simp only [List.mem_cons, List.not_mem_nil, or_false] at hd
    rcases hd with rfl | rfl
    · have hpass : p.Passes n.Matches b i t := by
        -- Behind the first branch the run jumps over the others.
        refine (passes_of_accepts hw.1 hn ht).trans (S := Eq) (fun j s _ hs => ?_)
          fun j k hj hk => hk ▸ hj
        obtain ⟨u, rfl, hu⟩ := hs.exists_tail (successors_jump hjump)
        exact (Passes.refl hu).cons (save_le_of_instr hjump (by simp)) fun k hk => hk
      refine hpass.cons (save_le_of_instr hsplit (by simp)) ?_
      intro j hj
      rw [Node.MatchesSome]
      exact Or.inl hj
    · have hpass := passesSome_of_accepts (List.cons_ne_nil m ns) hw.2 hholds ht
      refine hpass.cons (save_le_of_instr hsplit (by simp)) ?_
      intro j hj
      rw [Node.MatchesSome]
      exact Or.inr hj

end

/-! ## Every match lets a run pass -/

section

variable {H : Nat → Nat → Prop} {m : Nat} {greedy : Bool} {exit head back : Nat}

/-- Where a run accepts behind a match, one accepts in front of it. -/
def LedThrough (p : Program) (H : Nat → Nat → Prop) (R : Cursor → Cursor → Prop) : Prop :=
  ∀ a b i j, H a b → R i j → p.Reaches ⟨b, j⟩ → p.Reaches ⟨a, i⟩

theorem reaches_iterate (hp : p.LedThrough H R) (hH : Iterate H m a b) (hR : Iterate R m i j)
    (h : p.Reaches ⟨b, j⟩) : p.Reaches ⟨a, i⟩ := by
  induction m generalizing a i with
  | zero =>
    obtain rfl : a = b := hH
    obtain rfl : i = j := hR
    exact h
  | succ m ih =>
    obtain ⟨c, hc, hH⟩ := hH
    obtain ⟨k, hk, hR⟩ := hR
    exact hp a c i k hc hk (ih hH hR)

theorem reaches_options (hp : p.LedThrough H R)
    (hH : p.code.HoldsOptions greedy exit H m head) {k : Nat} (hk : k ≤ m) (hR : Iterate R k i j)
    (h : p.Reaches ⟨exit, j⟩) : p.Reaches ⟨head, i⟩ := by
  induction m generalizing head i k with
  | zero =>
    obtain rfl : head = exit := hH
    obtain rfl : k = 0 := Nat.le_zero.mp hk
    obtain rfl : i = j := hR
    exact h
  | succ m ih =>
    obtain ⟨hsplit, next, hbody, hH⟩ := hH
    have hsplit : p.instrs[head]? = some (loopSplit greedy exit head) := hsplit
    cases k with
    | zero =>
      obtain rfl : i = j := hR
      exact h.step ((mem_successors_loopSplit hsplit).mpr (Or.inr rfl))
    | succ k =>
      obtain ⟨l, hl, hR⟩ := hR
      have hnext := hp _ _ _ _ hbody hl (ih hH (Nat.le_of_succ_le_succ hk) hR)
      exact hnext.step ((mem_successors_loopSplit hsplit).mpr (Or.inl rfl))

theorem reaches_loop (hp : p.LedThrough H R)
    (hsplit : p.instrs[head]? = some (loopSplit greedy exit head)) (hbody : H (head + 1) back)
    (hjump : p.instrs[back]? = some (.jump head)) {k : Nat} (hR : Iterate R k i j)
    (h : p.Reaches ⟨exit, j⟩) : p.Reaches ⟨head, i⟩ := by
  induction k generalizing i with
  | zero =>
    obtain rfl : i = j := hR
    exact h.step ((mem_successors_loopSplit hsplit).mpr (Or.inr rfl))
  | succ k ih =>
    obtain ⟨l, hl, hR⟩ := hR
    have hback : p.Reaches ⟨back, l⟩ := (ih hR).step (by rw [successors_jump hjump]; simp)
    have hnext := hp _ _ _ _ hbody hl hback
    exact hnext.step ((mem_successors_loopSplit hsplit).mpr (Or.inl rfl))

end

mutual

/-- **Every match of a piece lets a run pass through its code.** -/
theorem reaches_of_matches : ∀ {n : Node} {a b : Nat} {i j : Cursor}, p.code.Holds n a b →
    n.Matches i j → p.Reaches ⟨b, j⟩ → p.Reaches ⟨a, i⟩
  | .empty, a, b, i, j, hholds, hm, h => by
    rw [Code.Holds] at hholds
    rw [Node.Matches] at hm
    rwa [hholds, hm]
  | .char c ignoreCase, a, b, i, j, hholds, hm, h => by
    rw [Code.Holds] at hholds
    rw [Node.Matches] at hm
    obtain ⟨hi, rfl⟩ := hholds
    cases ignoreCase with
    | true => exact reaches_take hi rfl (fun ch => rfl) hm h
    | false => exact reaches_take hi rfl (fun ch => rfl) hm h
  | .any, a, b, i, j, hholds, hm, h => by
    rw [Code.Holds] at hholds
    rw [Node.Matches] at hm
    obtain ⟨hi, rfl⟩ := hholds
    exact reaches_take hi rfl (fun ch => rfl) hm h
  | .anyButNewline, a, b, i, j, hholds, hm, h => by
    rw [Code.Holds] at hholds
    rw [Node.Matches] at hm
    obtain ⟨hi, rfl⟩ := hholds
    exact reaches_take hi rfl (fun ch => rfl) hm h
  | .bracket br, a, b, i, j, hholds, hm, h => by
    rw [Code.Holds] at hholds
    rw [Node.Matches] at hm
    obtain ⟨index, hi, hbr, rfl⟩ := hholds
    refine reaches_take hi rfl (fun ch => ?_) hm h
    have hbr : p.brackets[index]? = some br := hbr
    simp only [takes, hbr, Option.any_some]
  | .assertion s, a, b, i, j, hholds, hm, h => by
    rw [Code.Holds] at hholds
    rw [Node.Matches] at hm
    obtain ⟨hi, rfl⟩ := hholds
    obtain ⟨hs, rfl⟩ := hm
    exact h.step (by rw [successors_assertion hi, if_pos hs]; simp)
  | .cat nodes, a, b, i, j, hholds, hm, h => by
    rw [Code.Holds] at hholds
    rw [Node.Matches] at hm
    exact reachesAll_of_matches hholds hm h
  | .alt branches, a, b, i, j, hholds, hm, h => by
    rw [Code.Holds] at hholds
    rw [Node.Matches] at hm
    exact reachesSome_of_matches hholds hm h
  | .loop body ⟨min, none, greedy⟩, a, b, i, j, hholds, hm, h => by
    rw [Code.Holds] at hholds
    rw [Node.Matches] at hm
    obtain ⟨head, back, hmin, hsplit, hbody, hjump, rfl⟩ := hholds
    -- The iterations are the mandatory ones and then some number more.
    obtain ⟨k, hk, -, hm⟩ := hm
    obtain ⟨l, rfl⟩ := Nat.exists_eq_add_of_le hk
    obtain ⟨q, hq, hm⟩ := hm.split
    have hp : p.LedThrough (p.code.Holds body) body.Matches :=
      fun _ _ _ _ hH hR hr => reaches_of_matches hH hR hr
    exact reaches_iterate hp hmin hq (reaches_loop hp hsplit hbody hjump hm h)
  | .loop body ⟨min, some max, greedy⟩, a, b, i, j, hholds, hm, h => by
    rw [Code.Holds] at hholds
    rw [Node.Matches] at hm
    obtain ⟨head, hmin, hmore⟩ := hholds
    obtain ⟨k, hk, hmax, hm⟩ := hm
    obtain ⟨l, rfl⟩ := Nat.exists_eq_add_of_le hk
    obtain ⟨q, hq, hm⟩ := hm.split
    have hp : p.LedThrough (p.code.Holds body) body.Matches :=
      fun _ _ _ _ hH hR hr => reaches_of_matches hH hR hr
    have hle : min + l ≤ max := hmax max rfl
    exact reaches_iterate hp hmin hq (reaches_options hp hmore (by omega) hm h)
  | .group body index name, a, b, i, j, hholds, hm, h => by
    rw [Code.Holds] at hholds
    rw [Node.Matches] at hm
    obtain ⟨last, hopen, hbody, hclose, rfl⟩ := hholds
    have hlast : p.Reaches ⟨last, j⟩ := h.step (by rw [successors_save hclose]; simp)
    exact (reaches_of_matches hbody hm hlast).step (by rw [successors_save hopen]; simp)

theorem reachesAll_of_matches : ∀ {ns : List Node} {a b : Nat} {i j : Cursor},
    p.code.HoldsAll ns a b → Node.MatchesAll ns i j → p.Reaches ⟨b, j⟩ → p.Reaches ⟨a, i⟩
  | [], a, b, i, j, hholds, hm, h => by
    rw [Code.HoldsAll] at hholds
    rw [Node.MatchesAll] at hm
    rwa [hholds, hm]
  | n :: ns, a, b, i, j, hholds, hm, h => by
    rw [Code.HoldsAll] at hholds
    rw [Node.MatchesAll] at hm
    obtain ⟨c, hc, hholds⟩ := hholds
    obtain ⟨k, hk, hm⟩ := hm
    exact reaches_of_matches hc hk (reachesAll_of_matches hholds hm h)

theorem reachesSome_of_matches : ∀ {ns : List Node} {a b : Nat} {i j : Cursor},
    p.code.HoldsBranches ns a b → Node.MatchesSome ns i j → p.Reaches ⟨b, j⟩ → p.Reaches ⟨a, i⟩
  | [], _, _, _, _, _, hm, _ => by
    rw [Node.MatchesSome] at hm
    exact hm.elim
  | [n], a, b, i, j, hholds, hm, h => by
    rw [Code.HoldsBranches] at hholds
    rw [Node.MatchesSome, Node.MatchesSome, or_false] at hm
    exact reaches_of_matches hholds hm h
  | n :: m :: ns, a, b, i, j, hholds, hm, h => by
    rw [Code.HoldsBranches] at hholds
    rw [Node.MatchesSome] at hm
    obtain ⟨last, hsplit, hn, hjump, hholds⟩ := hholds
    rcases hm with hm | hm
    · have hlast : p.Reaches ⟨last, j⟩ := h.step (by rw [successors_jump hjump]; simp)
      exact (reaches_of_matches hn hm hlast).step (by rw [successors_split hsplit]; simp)
    · have hnext := reachesSome_of_matches hholds hm h
      exact hnext.step (by rw [successors_split hsplit]; simp)

end

/-! ## Whole programs -/

namespace Compiled

variable {pattern : Pattern} {exit : Nat}

/-- An accepting run of a compiled program is a match of its pattern, and records its bounds in the
slots of group 0. -/
theorem matches_of_accepts (hc : p.Compiled pattern exit) (hw : pattern.node.WellFormed)
    (h : p.Accepts ⟨0, i⟩ r) :
    ∃ j, pattern.node.Matches i j ∧ ∀ slots : Slots, 2 ≤ slots.size →
      (p.recorded r slots)[0]? = some (some i.offset) ∧
        (p.recorded r slots)[1]? = some (some j.offset) := by
  have hholds := hc.holds
  rw [Code.Holds] at hholds
  obtain ⟨last, hopen, hbody, hclose, rfl⟩ := hholds
  have hopen : p.instrs[0]? = some (.save 0) := hopen
  have hclose : p.instrs[last]? = some (.save 1) := hclose
  obtain ⟨t, rfl, ht⟩ := h.exists_tail (successors_save hopen)
  obtain ⟨j, pre, post, rfl, hpost, hj, hsaves⟩ := passes_of_accepts hw hbody ht
  obtain ⟨u, rfl, hu⟩ := hpost.exists_tail (successors_save hclose)
  -- Between the two ends of group 0 only other groups are recorded, and nothing behind it.
  have hend : u = [⟨last + 1, j⟩] := hu.eq_singleton hc.accept
  refine ⟨j, hj, ?_⟩
  intro slots hsize
  have hfirst : p.recordAt ⟨0, i⟩ slots = slots.setIfInBounds 0 (some i.offset) :=
    recordAt_save hopen
  have hlast : ∀ slots, p.recorded (⟨last, j⟩ :: u) slots =
      slots.setIfInBounds 1 (some j.offset) := by
    intro slots
    rw [hend, recorded_cons, recorded_cons, recorded_nil, recordAt_of_instr hc.accept (by simp)]
    exact recordAt_save hclose
  rw [recorded_cons, recorded_append, hfirst, hlast]
  constructor
  · rw [Array.getElem?_setIfInBounds_ne (by decide), hsaves.getElem?_recorded (by decide)]
    exact Array.getElem?_setIfInBounds_self_of_lt (by omega)
  · refine Array.getElem?_setIfInBounds_self_of_lt ?_
    rw [size_recorded, Array.size_setIfInBounds]
    omega

/-- **A compiled program accepts where its pattern matches.** -/
theorem exists_accepts_iff (hc : p.Compiled pattern exit) (hw : pattern.node.WellFormed) :
    (∃ r, p.Accepts ⟨0, i⟩ r) ↔ ∃ j, pattern.node.Matches i j := by
  constructor
  · rintro ⟨r, hr⟩
    obtain ⟨j, hj, -⟩ := hc.matches_of_accepts hw hr
    exact ⟨j, hj⟩
  · rintro ⟨j, hj⟩
    have hgroup : (.group pattern.node 0 none : Node).Matches i j := by rwa [Node.Matches]
    exact reaches_of_matches hc.holds hgroup ⟨_, .accept hc.accept⟩

end Compiled

end Program

end LinearRegex
