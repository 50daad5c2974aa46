import LinearRegex.Proofs.Program.Emission

/-!
# Compiled programs are closed

No thread leaves a compiled program: every instruction leads to instructions that are there, and a
bracket that an instruction refers to is there as well. This is read off the layout of the code,
where a piece never leads beyond the place behind it.

Main statements: `Code.Holds.inside`, and `Program.compile_inBounds` for a whole program.
-/

namespace LinearRegex

/-- Where a thread at an instruction may go on, given where the instruction stands. -/
def Instr.targets (ip : Nat) : Instr → List Nat
  | .accept => []
  | .split primary secondary => [primary, secondary]
  | .jump target => [target]
  | .char _ => [ip + 1]
  | .foldedChar _ => [ip + 1]
  | .bracket _ => [ip + 1]
  | .any => [ip + 1]
  | .anyButNewline => [ip + 1]
  | .assertion _ => [ip + 1]
  | .save _ => [ip + 1]

/-- A program that no thread leaves. -/
structure Program.Closed (p : Program) : Prop where
  nonempty : 0 < p.instrs.size
  targets : ∀ (ip : Nat) (i : Instr), p.instrs[ip]? = some i →
    ∀ t ∈ i.targets ip, t < p.instrs.size

/-- A program whose instructions refer only to what is there. -/
structure Program.InBounds (p : Program) : Prop extends p.Closed where
  brackets : ∀ ip index : Nat, p.instrs[ip]? = some (.bracket index) → index < p.brackets.size

namespace Code

variable {code : Code} {a b c i : Nat}

/-- There is an instruction at a place that leads to no place behind `b`. -/
def Inside (code : Code) (b i : Nat) : Prop :=
  ∃ instr, code.instrs[i]? = some instr ∧ (∀ t ∈ instr.targets i, t ≤ b) ∧
    ∀ index, instr = .bracket index → index < code.brackets.size

theorem Inside.mono (h : code.Inside b i) (hle : b ≤ c) : code.Inside c i := by
  obtain ⟨instr, hi, ht, hb⟩ := h
  exact ⟨instr, hi, fun t hmem => Nat.le_trans (ht t hmem) hle, hb⟩

theorem inside_of_instr {instr : Instr} (hi : code.instrs[i]? = some instr)
    (ht : ∀ t ∈ instr.targets i, t ≤ b) (hne : ∀ index, instr ≠ .bracket index) :
    code.Inside b i :=
  ⟨instr, hi, ht, fun index h => absurd h (hne index)⟩

theorem inside_loopSplit {greedy : Bool} {exit head : Nat}
    (hi : code.instrs[head]? = some (loopSplit greedy exit head)) (h : head + 1 ≤ b)
    (h' : exit ≤ b) : code.Inside b head := by
  unfold loopSplit at hi
  cases greedy with
  | true => exact inside_of_instr hi (by simp [Instr.targets, h, h']) (by simp)
  | false => exact inside_of_instr hi (by simp [Instr.targets, h, h']) (by simp)

/-! ## Pieces -/

/-- What `R` says of the places between two ends, iterations of it say as well. -/
theorem inside_iterate {R : Nat → Nat → Prop} {n : Nat} (hle : ∀ x y, R x y → x ≤ y)
    (hR : ∀ x y, R x y → ∀ i, x ≤ i → i < y → code.Inside y i) (h : Iterate R n a b) :
    ∀ i, a ≤ i → i < b → code.Inside b i := by
  induction n generalizing a with
  | zero =>
    obtain rfl : a = b := h
    intro i hi hi'
    omega
  | succ n ih =>
    obtain ⟨m, hm, h⟩ := h
    intro i hi hi'
    rcases Nat.lt_or_ge i m with hlt | hge
    · exact (hR a m hm i hi hlt).mono (h.le hle)
    · exact ih h i hge hi'

theorem inside_options {R : Nat → Nat → Prop} {greedy : Bool} {exit n head : Nat}
    (hle : ∀ x y, R x y → x ≤ y) (hR : ∀ x y, R x y → ∀ i, x ≤ i → i < y → code.Inside y i)
    (h : code.HoldsOptions greedy exit R n head) :
    ∀ i, head ≤ i → i < exit → code.Inside exit i := by
  induction n generalizing head with
  | zero =>
    obtain rfl : head = exit := h
    intro i hi hi'
    omega
  | succ n ih =>
    obtain ⟨hsplit, next, hbody, h⟩ := h
    have hnext := hle _ _ hbody
    have hexit := h.le hle
    intro i hi hi'
    rcases Nat.lt_trichotomy i head with hlt | rfl | hgt
    · omega
    · exact inside_loopSplit hsplit (by omega) (Nat.le_refl _)
    · rcases Nat.lt_or_ge i next with hlt | hge
      · exact (hR _ _ hbody i hgt hlt).mono hexit
      · exact ih h i hge hi'

mutual

/-- **A piece of code leads to no place beyond the one behind it.** -/
theorem Holds.inside : ∀ {n : Node} {a b : Nat}, code.Holds n a b →
    ∀ i, a ≤ i → i < b → code.Inside b i
  | .empty, a, b, h, i, hi, hi' => by
    rw [Holds] at h
    omega
  | .char c ignoreCase, a, b, h, i, hi, hi' => by
    rw [Holds] at h
    obtain ⟨h, rfl⟩ := h
    obtain rfl : i = a := by omega
    cases ignoreCase with
    | true => exact inside_of_instr h (by simp [Instr.targets]) (by simp)
    | false => exact inside_of_instr h (by simp [Instr.targets]) (by simp)
  | .any, a, b, h, i, hi, hi' => by
    rw [Holds] at h
    obtain ⟨h, rfl⟩ := h
    obtain rfl : i = a := by omega
    exact inside_of_instr h (by simp [Instr.targets]) (by simp)
  | .anyButNewline, a, b, h, i, hi, hi' => by
    rw [Holds] at h
    obtain ⟨h, rfl⟩ := h
    obtain rfl : i = a := by omega
    exact inside_of_instr h (by simp [Instr.targets]) (by simp)
  | .bracket br, a, b, h, i, hi, hi' => by
    rw [Holds] at h
    obtain ⟨index, h, hbr, rfl⟩ := h
    obtain rfl : i = a := by omega
    refine ⟨_, h, by simp [Instr.targets], ?_⟩
    rintro _ ⟨⟩
    exact (Array.getElem?_eq_some_iff.mp hbr).1
  | .assertion s, a, b, h, i, hi, hi' => by
    rw [Holds] at h
    obtain ⟨h, rfl⟩ := h
    obtain rfl : i = a := by omega
    exact inside_of_instr h (by simp [Instr.targets]) (by simp)
  | .cat nodes, a, b, h, i, hi, hi' => by
    rw [Holds] at h
    exact HoldsAll.inside h i hi hi'
  | .alt branches, a, b, h, i, hi, hi' => by
    rw [Holds] at h
    exact HoldsBranches.inside h i hi hi'
  | .loop body ⟨min, none, greedy⟩, a, b, h, i, hi, hi' => by
    rw [Holds] at h
    obtain ⟨head, back, hmin, hsplit, hbody, hjump, rfl⟩ := h
    have hback := hbody.le
    rcases Nat.lt_trichotomy i head with hlt | rfl | hgt
    · exact (inside_iterate (fun x y => Holds.le) (fun x y h => Holds.inside h) hmin i hi hlt).mono
        (by omega)
    · exact inside_loopSplit hsplit (by omega) (Nat.le_refl _)
    · rcases Nat.lt_or_ge i back with hlt | hge
      · exact (Holds.inside hbody i hgt hlt).mono (Nat.le_succ _)
      · obtain rfl : i = back := by omega
        exact inside_of_instr hjump (by simp [Instr.targets]; omega) (by simp)
  | .loop body ⟨min, some max, greedy⟩, a, b, h, i, hi, hi' => by
    rw [Holds] at h
    obtain ⟨head, hmin, hmore⟩ := h
    have hexit := hmore.le fun x y => Holds.le
    rcases Nat.lt_or_ge i head with hlt | hge
    · exact (inside_iterate (fun x y => Holds.le) (fun x y h => Holds.inside h) hmin i hi hlt).mono
        hexit
    · exact inside_options (fun x y => Holds.le) (fun x y h => Holds.inside h) hmore i hge hi'
  | .group body index _, a, b, h, i, hi, hi' => by
    rw [Holds] at h
    obtain ⟨last, hopen, hbody, hclose, rfl⟩ := h
    have hlast := hbody.le
    rcases Nat.lt_trichotomy i a with hlt | rfl | hgt
    · omega
    · exact inside_of_instr hopen (by simp [Instr.targets]; omega) (by simp)
    · rcases Nat.lt_or_ge i last with hlt | hge
      · exact (Holds.inside hbody i hgt hlt).mono (Nat.le_succ _)
      · obtain rfl : i = last := by omega
        exact inside_of_instr hclose (by simp [Instr.targets]) (by simp)

theorem HoldsAll.inside : ∀ {ns : List Node} {a b : Nat}, code.HoldsAll ns a b →
    ∀ i, a ≤ i → i < b → code.Inside b i
  | [], a, b, h, i, hi, hi' => by
    rw [HoldsAll] at h
    omega
  | _ :: _, a, b, h, i, hi, hi' => by
    rw [HoldsAll] at h
    obtain ⟨m, hm, h⟩ := h
    rcases Nat.lt_or_ge i m with hlt | hge
    · exact (Holds.inside hm i hi hlt).mono h.le
    · exact HoldsAll.inside h i hge hi'

theorem HoldsBranches.inside : ∀ {ns : List Node} {a b : Nat}, code.HoldsBranches ns a b →
    ∀ i, a ≤ i → i < b → code.Inside b i
  | [], a, b, h, i, hi, hi' => by
    rw [HoldsBranches] at h
    omega
  | [_], a, b, h, i, hi, hi' => by
    rw [HoldsBranches] at h
    exact Holds.inside h i hi hi'
  | _ :: _ :: _, a, b, h, i, hi, hi' => by
    rw [HoldsBranches] at h
    obtain ⟨last, hsplit, hm, hjump, h⟩ := h
    have hlast := hm.le
    have hexit := h.le
    rcases Nat.lt_trichotomy i a with hlt | rfl | hgt
    · omega
    · exact inside_of_instr hsplit (by simp [Instr.targets]; omega) (by simp)
    · rcases Nat.lt_trichotomy i last with hlt | rfl | hgt
      · exact (Holds.inside hm i hgt hlt).mono (by omega)
      · exact inside_of_instr hjump (by simp [Instr.targets]) (by simp)
      · exact HoldsBranches.inside h i hgt hi'

end

end Code

/-! ## Programs -/

namespace Program

variable {p : Program} {pattern : Pattern} {limit exit : Nat}

/-- **A compiled program is closed.** -/
theorem compile_inBounds (h : compile limit pattern = .ok p) : p.InBounds := by
  obtain ⟨exit, hc, hsize⟩ := compile_layout h
  have hinside : ∀ i < exit, p.code.Inside exit i :=
    fun i hi => hc.holds.inside i (Nat.zero_le i) hi
  refine ⟨⟨by omega, ?_⟩, ?_⟩
  · intro ip i hi t ht
    have hlt := (Array.getElem?_eq_some_iff.mp hi).1
    rcases Nat.lt_or_eq_of_le (Nat.le_of_lt_succ (hsize ▸ hlt)) with hlt | rfl
    · obtain ⟨instr, hinstr, htargets, -⟩ := hinside ip hlt
      obtain rfl := Option.some.inj (hinstr.symm.trans hi)
      have := htargets t ht
      omega
    · -- Behind the code of the pattern the match is complete.
      obtain rfl := Option.some.inj (hc.accept.symm.trans hi)
      simp [Instr.targets] at ht
  · intro ip index hi
    have hlt := (Array.getElem?_eq_some_iff.mp hi).1
    rcases Nat.lt_or_eq_of_le (Nat.le_of_lt_succ (hsize ▸ hlt)) with hlt | rfl
    · obtain ⟨instr, hinstr, -, hbrackets⟩ := hinside ip hlt
      exact hbrackets index (Option.some.inj (hinstr.symm.trans hi))
    · rw [hc.accept] at hi
      simp at hi

end Program

end LinearRegex
