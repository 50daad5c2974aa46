import LinearRegex.Proofs.Pattern.Trails
import LinearRegex.Proofs.Program.Emission
import LinearRegex.Proofs.Run.Choices

/-!
# The choices of a piece are the splits in its code

The code of a piece has a split for each choice there is in the piece, in the same order. So the
number of a choice in the tree is the number of splits before it in the program.

Main statement: `choicesBefore_of_holds`.
-/

namespace LinearRegex

namespace Program

variable {p : Program}

/-! ## Loops -/

section

variable {H : Nat → Nat → Prop} {size m : Nat} {greedy : Bool} {exit head : Nat}

theorem isSplit_loopSplit (greedy : Bool) (exit head : Nat) :
    (loopSplit greedy exit head).isSplit = true := by
  cases greedy <;> rfl

theorem isChoice_loopSplit (hi : p.instrs[head]? = some (loopSplit greedy exit head)) :
    p.isChoice head = true :=
  (isChoice_of_instr hi).trans (isSplit_loopSplit _ _ _)

theorem choicesBefore_loopSplit (hi : p.instrs[head]? = some (loopSplit greedy exit head)) :
    p.choicesBefore (head + 1) = p.choicesBefore head + 1 := by
  rw [choicesBefore_succ hi, isSplit_loopSplit, if_pos rfl]

theorem choicesBefore_iterate
    (hp : ∀ a b, H a b → p.choicesBefore b = p.choicesBefore a + size) (hH : Iterate H m a b) :
    p.choicesBefore b = p.choicesBefore a + m * size := by
  induction m generalizing a with
  | zero =>
    obtain rfl : a = b := hH
    rw [Nat.zero_mul, Nat.add_zero]
  | succ m ih =>
    obtain ⟨c, hc, hH⟩ := hH
    rw [ih hH, hp a c hc, Nat.succ_mul]
    omega

theorem choicesBefore_options
    (hp : ∀ a b, H a b → p.choicesBefore b = p.choicesBefore a + size)
    (hH : p.code.HoldsOptions greedy exit H m head) :
    p.choicesBefore exit = p.choicesBefore head + m * (1 + size) := by
  induction m generalizing head with
  | zero =>
    obtain rfl : head = exit := hH
    rw [Nat.zero_mul, Nat.add_zero]
  | succ m ih =>
    obtain ⟨hsplit, next, hbody, hH⟩ := hH
    rw [ih hH, hp _ _ hbody, choicesBefore_loopSplit hsplit, Nat.succ_mul]
    omega

end

/-! ## The whole tree -/

mutual

/-- **A piece of code has the choices of the piece.** -/
theorem choicesBefore_of_holds : ∀ {n : Node} {a b : Nat}, p.code.Holds n a b →
    p.choicesBefore b = p.choicesBefore a + n.choices
  | .empty, a, b, h => by
    rw [Code.Holds] at h
    rw [h, Node.choices, Nat.add_zero]
  | .char c ignoreCase, a, b, h => by
    rw [Code.Holds] at h
    obtain ⟨hi, rfl⟩ := h
    rw [choicesBefore_succ hi]
    cases ignoreCase <;> rfl
  | .any, a, b, h => by
    rw [Code.Holds] at h
    obtain ⟨hi, rfl⟩ := h
    exact choicesBefore_succ hi
  | .anyButNewline, a, b, h => by
    rw [Code.Holds] at h
    obtain ⟨hi, rfl⟩ := h
    exact choicesBefore_succ hi
  | .bracket br, a, b, h => by
    rw [Code.Holds] at h
    obtain ⟨index, hi, -, rfl⟩ := h
    exact choicesBefore_succ hi
  | .assertion s, a, b, h => by
    rw [Code.Holds] at h
    obtain ⟨hi, rfl⟩ := h
    exact choicesBefore_succ hi
  | .cat nodes, a, b, h => by
    rw [Code.Holds] at h
    exact choicesBefore_of_holdsAll h
  | .alt branches, a, b, h => by
    rw [Code.Holds] at h
    exact choicesBefore_of_holdsBranches h
  | .loop body ⟨min, none, greedy⟩, a, b, h => by
    rw [Code.Holds] at h
    obtain ⟨head, back, hmin, hsplit, hbody, hjump, rfl⟩ := h
    have hhead := choicesBefore_iterate (fun _ _ h => choicesBefore_of_holds h) hmin
    have hback := choicesBefore_of_holds hbody
    have hsplit := choicesBefore_loopSplit hsplit
    have hjump : p.choicesBefore (back + 1) = p.choicesBefore back := choicesBefore_succ hjump
    rw [Node.choices]
    omega
  | .loop body ⟨min, some max, greedy⟩, a, b, h => by
    rw [Code.Holds] at h
    obtain ⟨head, hmin, hmore⟩ := h
    have hhead := choicesBefore_iterate (fun _ _ h => choicesBefore_of_holds h) hmin
    have hexit := choicesBefore_options (fun _ _ h => choicesBefore_of_holds h) hmore
    rw [Node.choices]
    omega
  | .group body index name, a, b, h => by
    rw [Code.Holds] at h
    obtain ⟨last, hopen, hbody, hclose, rfl⟩ := h
    have hopen : p.choicesBefore (a + 1) = p.choicesBefore a := choicesBefore_succ hopen
    have hbody := choicesBefore_of_holds hbody
    have hclose : p.choicesBefore (last + 1) = p.choicesBefore last := choicesBefore_succ hclose
    rw [Node.choices]
    omega

theorem choicesBefore_of_holdsAll : ∀ {ns : List Node} {a b : Nat}, p.code.HoldsAll ns a b →
    p.choicesBefore b = p.choicesBefore a + Node.choicesAll ns
  | [], a, b, h => by
    rw [Code.HoldsAll] at h
    rw [h, Node.choicesAll, Nat.add_zero]
  | n :: ns, a, b, h => by
    rw [Code.HoldsAll] at h
    obtain ⟨m, hm, h⟩ := h
    rw [choicesBefore_of_holdsAll h, choicesBefore_of_holds hm, Node.choicesAll, Nat.add_assoc]

theorem choicesBefore_of_holdsBranches : ∀ {ns : List Node} {a b : Nat},
    p.code.HoldsBranches ns a b →
    p.choicesBefore b = p.choicesBefore a + (Node.choicesAll ns + (ns.length - 1))
  | [], a, b, h => by
    rw [Code.HoldsBranches] at h
    rw [h]
    rfl
  | [n], a, b, h => by
    rw [Code.HoldsBranches] at h
    rw [choicesBefore_of_holds h]
    rfl
  | n :: m :: ns, a, b, h => by
    rw [Code.HoldsBranches] at h
    obtain ⟨last, hsplit, hn, hjump, h⟩ := h
    have hsplit : p.choicesBefore (a + 1) = p.choicesBefore a + 1 := choicesBefore_succ hsplit
    have hn := choicesBefore_of_holds hn
    have hjump : p.choicesBefore (last + 1) = p.choicesBefore last := choicesBefore_succ hjump
    have hns := choicesBefore_of_holdsBranches h
    rw [Node.choicesAll]
    simp only [List.length_cons] at hns ⊢
    omega

end

end Program

end LinearRegex
