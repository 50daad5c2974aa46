import LinearRegex.Proofs.Program.Layout

/-!
# The compiler writes what is laid out

Writing the code of a piece puts it behind what has been written before and leaves that as it is,
but for the jumps of branches, which are patched once their exit is known.

Main statements: `Node.emit_holds`, and `Program.compile_layout` for a whole program.
-/

namespace LinearRegex

/-- The code of a program. -/
def Program.code (p : Program) : Code := ⟨p.instrs, p.brackets⟩

variable {code code' code'' : Code} {a b limit : Nat}

/-- A result that comes of two steps comes of the first one's result. -/
theorem bind_eq_ok {α β ε : Type} {x : Except ε α} {f : α → Except ε β} {z : β}
    (h : x >>= f = .ok z) : ∃ y, x = .ok y ∧ f y = .ok z := by
  cases x with
  | error e => simp [bind, Except.bind] at h
  | ok y => exact ⟨y, rfl, h⟩

namespace Code

/-! ## Writing behind what there is -/

/-- Code that goes on behind other code. -/
structure Extends (code code' : Code) : Prop where
  le : code.size ≤ code'.size
  agrees : code.Agrees code' 0 code.size

namespace Extends

theorem refl (code : Code) : code.Extends code := ⟨Nat.le_refl _, .refl _ _ _⟩

theorem trans (h : code.Extends code') (h' : code'.Extends code'') : code.Extends code'' :=
  ⟨Nat.le_trans h.le h'.le, h.agrees.trans (h'.agrees.mono (Nat.le_refl _) h.le)⟩

theorem getElem? (h : code.Extends code') {i : Nat} {instr : Instr}
    (hi : code.instrs[i]? = some instr) : code'.instrs[i]? = some instr := by
  rw [h.agrees.instrs i (Nat.zero_le i) (Array.getElem?_eq_some_iff.mp hi).1]
  exact hi

theorem holds (h : code.Extends code') {n : Node} (hn : code.Holds n a code.size) :
    code'.Holds n a code.size :=
  hn.congr (h.agrees.mono (Nat.zero_le a) (Nat.le_refl _))

theorem iterate (h : code.Extends code') {n : Node} {m : Nat}
    (hm : Iterate (code.Holds n) m a code.size) : Iterate (code'.Holds n) m a code.size := by
  refine hm.imp_within (fun x y => Holds.le) ?_
  intro x y _ hy hxy
  exact hxy.congr (h.agrees.mono (Nat.zero_le x) hy)

end Extends

theorem push_eq_ok {i : Instr} (h : code.push limit i = .ok code') :
    code' = { code with instrs := code.instrs.push i } := by
  unfold push at h
  split at h
  · simp at h
  · exact (Except.ok.inj h).symm

theorem size_push {i : Instr} (h : code.push limit i = .ok code') :
    code'.size = code.size + 1 := by
  rw [push_eq_ok h]
  exact Array.size_push _

theorem getElem?_push {i : Instr} (h : code.push limit i = .ok code') :
    code'.instrs[code.size]? = some i := by
  rw [push_eq_ok h]
  exact Array.getElem?_push_size

theorem extends_push {i : Instr} (h : code.push limit i = .ok code') : code.Extends code' := by
  refine ⟨by rw [size_push h]; exact Nat.le_succ _, fun j _ hj => ?_, fun j br hbr => ?_⟩
  · have hne : j ≠ code.instrs.size := Nat.ne_of_lt hj
    rw [push_eq_ok h, Array.getElem?_push, if_neg hne]
  · rw [push_eq_ok h]
    exact hbr

theorem pushBracket_holds {br : Bracket} (h : code.pushBracket limit br = .ok code') :
    code'.Holds (.bracket br) code.size code'.size ∧ code.Extends code' := by
  unfold pushBracket at h
  have hbracket : code.Extends { code with brackets := code.brackets.push br } := by
    refine ⟨Nat.le_refl _, fun _ _ _ => rfl, ?_⟩
    intro i b hb
    have hlt := (Array.getElem?_eq_some_iff.mp hb).1
    rw [Array.getElem?_push, if_neg (Nat.ne_of_lt hlt)]
    exact hb
  have hpush := extends_push h
  refine ⟨?_, hbracket.trans hpush⟩
  rw [Holds]
  have hsize := size_push h
  have hinstr := getElem?_push h
  exact ⟨code.brackets.size, hinstr, hpush.agrees.brackets _ _ Array.getElem?_push_size, hsize⟩

/-! ## Patching -/

@[simp] theorem size_patch (code : Code) (place : Nat) (i : Instr) :
    (code.patch place i).size = code.size := Array.size_setIfInBounds

theorem getElem?_patch_self {place : Nat} {i : Instr} (h : place < code.size) :
    (code.patch place i).instrs[place]? = some i := Array.getElem?_setIfInBounds_self_of_lt h

theorem getElem?_patch_of_ne {place j : Nat} {i : Instr} (h : j ≠ place) :
    (code.patch place i).instrs[j]? = code.instrs[j]? :=
  Array.getElem?_setIfInBounds_ne (Ne.symm h)

/-- Patching leaves alone what stands elsewhere. -/
theorem agrees_patch {place : Nat} {i : Instr} (h : place < a ∨ b ≤ place) :
    code.Agrees (code.patch place i) a b :=
  ⟨fun _ hj hj' => getElem?_patch_of_ne (by omega), fun _ _ h => h⟩

/-- Places behind some code may be patched. -/
theorem Extends.patch (h : code.Extends code') {place : Nat} (hplace : code.size ≤ place)
    (i : Instr) : code.Extends (code'.patch place i) := by
  refine ⟨?_, h.agrees.trans (agrees_patch (Or.inr hplace))⟩
  rw [size_patch]
  exact h.le

@[simp] theorem size_patchAll (code : Code) (places : List Nat) (i : Nat → Instr) :
    (code.patchAll places i).size = code.size := by
  induction places generalizing code with
  | nil => rfl
  | cons place places ih => exact (ih _).trans (size_patch _ _ _)

theorem brackets_patchAll (code : Code) (places : List Nat) (i : Nat → Instr) :
    (code.patchAll places i).brackets = code.brackets := by
  induction places generalizing code with
  | nil => rfl
  | cons place places ih => exact ih _

theorem getElem?_patchAll_of_not_mem {places : List Nat} {i : Nat → Instr} {j : Nat}
    (h : j ∉ places) : (code.patchAll places i).instrs[j]? = code.instrs[j]? := by
  induction places generalizing code with
  | nil => rfl
  | cons place places ih =>
    rw [List.mem_cons, not_or] at h
    exact (ih h.2).trans (getElem?_patch_of_ne h.1)

theorem getElem?_patchAll_of_mem {places : List Nat} {i : Nat → Instr} {j : Nat}
    (h : j ∈ places) (hlt : j < code.size) :
    (code.patchAll places i).instrs[j]? = some (i j) := by
  induction places generalizing code with
  | nil => simp at h
  | cons place places ih =>
    by_cases hj : j ∈ places
    · exact ih hj (by rwa [size_patch])
    · obtain rfl : j = place := (List.mem_cons.mp h).resolve_right hj
      exact (getElem?_patchAll_of_not_mem hj).trans (getElem?_patch_self hlt)

/-- Patching several places leaves alone what stands between them. -/
theorem agrees_patchAll {places : List Nat} {i : Nat → Instr}
    (h : ∀ place ∈ places, place < a ∨ b ≤ place) : code.Agrees (code.patchAll places i) a b := by
  refine ⟨fun j hj hj' => getElem?_patchAll_of_not_mem fun hmem => ?_, fun j br hbr => ?_⟩
  · have := h j hmem
    omega
  · rw [brackets_patchAll]
    exact hbr

theorem Extends.patchAll (h : code.Extends code') {places : List Nat}
    (hplaces : ∀ place ∈ places, code.size ≤ place) (i : Nat → Instr) :
    code.Extends (code'.patchAll places i) := by
  refine ⟨?_, h.agrees.trans (agrees_patchAll fun place hplace => Or.inr (hplaces place hplace))⟩
  rw [size_patchAll]
  exact h.le

/-! ## Repeated pieces -/

/-- How a step of the compiler writes a piece: behind the code there is. -/
def Writes (step : Code → Except CompileError Code) (n : Node) : Prop :=
  ∀ code code' : Code, step code = .ok code' →
    code'.Holds n code.size code'.size ∧ code.Extends code'

variable {step : Code → Except CompileError Code} {n : Node}

theorem Writes.repeated (hw : Writes step n) {m : Nat} (h : times step m code = .ok code') :
    Iterate (code'.Holds n) m code.size code'.size ∧ code.Extends code' := by
  induction m generalizing code with
  | zero =>
    obtain rfl : code = code' := Except.ok.inj h
    exact ⟨rfl, .refl _⟩
  | succ m ih =>
    obtain ⟨next, hstep, h⟩ := bind_eq_ok h
    obtain ⟨hbody, hnext⟩ := hw code next hstep
    obtain ⟨hmore, hlast⟩ := ih h
    exact ⟨⟨next.size, hlast.holds hbody, hmore⟩, hnext.trans hlast⟩

/-- Iterations without a bound, once the split in front of them leads to their exit. -/
theorem Writes.unbounded (hw : Writes step n) {pushed back exit : Code}
    (hpush : code.push limit (.jump 0) = .ok pushed) (hbody : step pushed = .ok back)
    (hjump : back.push limit (.jump code.size) = .ok exit) (split : Instr) :
    (exit.patch code.size split).instrs[code.size]? = some split ∧
      (exit.patch code.size split).Holds n (code.size + 1) back.size ∧
      (exit.patch code.size split).instrs[back.size]? = some (.jump code.size) ∧
      exit.size = back.size + 1 ∧ code.Extends (exit.patch code.size split) := by
  obtain ⟨hbody, hback⟩ := hw pushed back hbody
  have hsize := size_push hpush
  have hsize' := size_push hjump
  have hle := hback.le
  have hexit := extends_push hjump
  refine ⟨getElem?_patch_self (by omega), ?_, ?_, hsize', ?_⟩
  · rw [← hsize]
    exact (hexit.holds hbody).congr (agrees_patch (Or.inl (by omega)))
  · rw [getElem?_patch_of_ne (by omega)]
    exact getElem?_push hjump
  · exact (((extends_push hpush).trans hback).trans hexit).patch (Nat.le_refl _) split

/-- A step of the compiler for an optional iteration: a place for the split, and the body. -/
def optionStep (limit : Nat) (step : Code → Except CompileError Code) :
    List Nat × Code → Except CompileError (List Nat × Code)
  | (heads, code) => do
    let head := code.size
    let code ← code.push limit (.jump 0)
    let code ← step code
    return (head :: heads, code)

theorem optionStep_eq_ok {heads heads' : List Nat}
    (h : optionStep limit step (heads, code) = .ok (heads', code')) :
    ∃ pushed, code.push limit (.jump 0) = .ok pushed ∧ step pushed = .ok code' ∧
      heads' = code.size :: heads := by
  obtain ⟨pushed, hpush, h⟩ := bind_eq_ok h
  obtain ⟨body, hbody, h⟩ := bind_eq_ok h
  obtain ⟨rfl, rfl⟩ := Prod.mk.inj (Except.ok.inj h)
  exact ⟨pushed, hpush, hbody, rfl⟩

/-- Optional iterations, once the splits in front of them lead to their exit. -/
theorem Writes.options (hw : Writes step n) {m : Nat} {heads heads' : List Nat}
    (h : times (optionStep limit step) m (heads, code) = .ok (heads', code'))
    (hheads : ∀ head ∈ heads, head < code.size) (greedy : Bool) :
    (code'.patchAll heads' (loopSplit greedy code'.size)).HoldsOptions greedy code'.size
        ((code'.patchAll heads' (loopSplit greedy code'.size)).Holds n) m code.size ∧
      code.Extends code' ∧ heads ⊆ heads' ∧ ∀ head ∈ heads', head ∈ heads ∨ code.size ≤ head := by
  induction m generalizing code heads with
  | zero =>
    obtain ⟨rfl, rfl⟩ := Prod.mk.inj (Except.ok.inj h)
    exact ⟨rfl, .refl _, fun _ h => h, fun _ h => Or.inl h⟩
  | succ m ih =>
    obtain ⟨⟨heads₁, next⟩, hstep, h⟩ := bind_eq_ok h
    obtain ⟨pushed, hpush, hbody, rfl⟩ := optionStep_eq_ok hstep
    obtain ⟨hholds, hnext⟩ := hw pushed next hbody
    have hsize := size_push hpush
    have hle := hholds.le
    -- The splits up to this one stand before the body, the later ones behind it.
    have hbelow : ∀ head ∈ code.size :: heads, head < pushed.size := by
      intro head hhead
      rcases List.mem_cons.mp hhead with rfl | hhead
      · omega
      · have := hheads head hhead
        omega
    obtain ⟨hoptions, hlast, hsub, hnew⟩ :=
      ih h fun head hhead => Nat.lt_of_lt_of_le (hbelow head hhead) hle
    have hexit := hlast.le
    refine ⟨⟨?_, next.size, ?_, hoptions⟩, ((extends_push hpush).trans hnext).trans hlast,
      fun x hx => hsub (List.mem_cons_of_mem _ hx), fun head hhead => ?_⟩
    · exact getElem?_patchAll_of_mem (hsub List.mem_cons_self) (by omega)
    · rw [← hsize]
      refine (hlast.holds hholds).congr (agrees_patchAll fun head hhead => ?_)
      exact (hnew head hhead).imp (hbelow head) id
    · rcases hnew head hhead with hmem | hmem
      · rcases List.mem_cons.mp hmem with rfl | hmem
        · exact Or.inr (Nat.le_refl _)
        · exact Or.inl hmem
      · exact Or.inr (by omega)

/-! ## Branches -/

/-- Branches that have been written behind some code: the jumps of the branches before lead to their
exit, and all else is left alone. -/
structure Branched (ns : List Node) (jumps : List Nat) (code code' : Code) : Prop where
  holds : code'.HoldsBranches ns code.size code'.size
  le : code.size ≤ code'.size
  jump : ∀ j ∈ jumps, code'.instrs[j]? = some (.jump code'.size)
  instrs : ∀ i : Nat, i < code.size → i ∉ jumps → code'.instrs[i]? = code.instrs[i]?
  brackets : ∀ (i : Nat) (br : Bracket), code.brackets[i]? = some br → code'.brackets[i]? = some br

end Code

/-! ## The whole tree -/

namespace Node

theorem emit_loop_some (limit : Nat) (body : Node) (min max : Nat) (greedy : Bool) (code : Code) :
    emit limit (.loop body ⟨min, some max, greedy⟩) code =
      times (emit limit body) min code >>= fun code =>
        times (Code.optionStep limit (emit limit body)) (max - min) ([], code) >>= fun x =>
          .ok (x.2.patchAll x.1 (loopSplit greedy x.2.size)) := by
  rw [emit]
  rfl

theorem emitBranches_cons_cons (limit : Nat) (n m : Node) (ns : List Node) (jumps : List Nat)
    (code : Code) :
    emitBranches limit (n :: m :: ns) jumps code =
      code.push limit (.split 0 0) >>= fun pushed =>
        emit limit n pushed >>= fun body =>
          body.push limit (.jump 0) >>= fun next =>
            emitBranches limit (m :: ns) (body.size :: jumps)
              (next.patch code.size (.split (code.size + 1) next.size)) := by
  rw [emitBranches]

mutual

/-- **The code of a piece is written behind the code there is.** -/
theorem emit_holds : ∀ (n : Node), Code.Writes (emit limit n) n
  | .empty, code, code', h => by
    obtain rfl : code = code' := by
      rw [emit] at h
      exact Except.ok.inj h
    exact ⟨by rw [Code.Holds], .refl _⟩
  | .char c ignoreCase, code, code', h => by
    rw [emit] at h
    rw [Code.Holds]
    exact ⟨⟨Code.getElem?_push h, Code.size_push h⟩, Code.extends_push h⟩
  | .any, code, code', h => by
    rw [emit] at h
    rw [Code.Holds]
    exact ⟨⟨Code.getElem?_push h, Code.size_push h⟩, Code.extends_push h⟩
  | .anyButNewline, code, code', h => by
    rw [emit] at h
    rw [Code.Holds]
    exact ⟨⟨Code.getElem?_push h, Code.size_push h⟩, Code.extends_push h⟩
  | .bracket b, code, code', h => by
    rw [emit] at h
    exact Code.pushBracket_holds h
  | .assertion a, code, code', h => by
    rw [emit] at h
    rw [Code.Holds]
    exact ⟨⟨Code.getElem?_push h, Code.size_push h⟩, Code.extends_push h⟩
  | .cat nodes, code, code', h => by
    rw [emit] at h
    rw [Code.Holds]
    exact emitAll_holds nodes code code' h
  | .alt branches, code, code', h => by
    rw [emit] at h
    rw [Code.Holds]
    have hbranched := emitBranches_branched branches [] code code' h (by simp)
    exact ⟨hbranched.holds, hbranched.le, fun i _ hi => hbranched.instrs i hi (by simp),
      hbranched.brackets⟩
  | .loop body ⟨min, none, greedy⟩, code, code', h => by
    rw [emit] at h
    obtain ⟨head, hmin, h⟩ := bind_eq_ok h
    obtain ⟨pushed, hpush, h⟩ := bind_eq_ok h
    obtain ⟨back, hbody, h⟩ := bind_eq_ok h
    obtain ⟨exit, hjump, h⟩ := bind_eq_ok h
    obtain rfl := Except.ok.inj h
    obtain ⟨hmin, hhead⟩ := (emit_holds body).repeated hmin
    obtain ⟨hsplit, hbody, hjump, hsize, hexit⟩ := (emit_holds body).unbounded hpush hbody hjump
      (loopSplit greedy exit.size head.size)
    rw [Code.Holds, Code.size_patch]
    refine ⟨⟨head.size, back.size, ?_, hsplit, hbody, hjump, hsize⟩, hhead.trans hexit⟩
    exact hexit.iterate hmin
  | .loop body ⟨min, some max, greedy⟩, code, code', h => by
    rw [emit_loop_some] at h
    obtain ⟨head, hmin, h⟩ := bind_eq_ok h
    obtain ⟨⟨heads, exit⟩, hoptions, h⟩ := bind_eq_ok h
    obtain rfl := Except.ok.inj h
    obtain ⟨hmin, hhead⟩ := (emit_holds body).repeated hmin
    obtain ⟨hmore, hexit, -, hnew⟩ := (emit_holds body).options hoptions (by simp) greedy
    have hexit : head.Extends (exit.patchAll heads (loopSplit greedy exit.size)) := by
      refine hexit.patchAll ?_ _
      intro place hplace
      exact (hnew place hplace).resolve_left (by simp)
    rw [Code.Holds, Code.size_patchAll]
    refine ⟨⟨head.size, ?_, hmore⟩, hhead.trans hexit⟩
    exact hexit.iterate hmin
  | .group body index _, code, code', h => by
    rw [emit] at h
    obtain ⟨opened, hopen, h⟩ := bind_eq_ok h
    obtain ⟨last, hbody, hclose⟩ := bind_eq_ok h
    obtain ⟨hbody, hlast⟩ := emit_holds body _ _ hbody
    have hend := Code.extends_push hclose
    rw [Code.Holds]
    refine ⟨⟨last.size, ?_, ?_, Code.getElem?_push hclose, Code.size_push hclose⟩,
      ((Code.extends_push hopen).trans hlast).trans hend⟩
    · exact (hlast.trans hend).getElem? (Code.getElem?_push hopen)
    · rw [← Code.size_push hopen]
      exact hend.holds hbody

theorem emitAll_holds : ∀ (ns : List Node) (code code' : Code), emitAll limit ns code = .ok code' →
    code'.HoldsAll ns code.size code'.size ∧ code.Extends code'
  | [], code, code', h => by
    rw [emitAll] at h
    obtain rfl := Except.ok.inj h
    exact ⟨by rw [Code.HoldsAll], .refl _⟩
  | n :: ns, code, code', h => by
    rw [emitAll] at h
    obtain ⟨next, hn, h⟩ := bind_eq_ok h
    obtain ⟨hholds, hnext⟩ := emit_holds n _ _ hn
    obtain ⟨hmore, hlast⟩ := emitAll_holds ns _ _ h
    rw [Code.HoldsAll]
    exact ⟨⟨next.size, hlast.holds hholds, hmore⟩, hnext.trans hlast⟩

/-- Branches are written with the jumps of the branches before, which lead to the exit at last. -/
theorem emitBranches_branched : ∀ (ns : List Node) (jumps : List Nat) (code code' : Code),
    emitBranches limit ns jumps code = .ok code' → (∀ j ∈ jumps, j < code.size) →
    Code.Branched ns jumps code code'
  | [], jumps, code, code', h, hjumps => by
    rw [emitBranches] at h
    obtain rfl := Except.ok.inj h
    refine ⟨?_, ?_, ?_, ?_, ?_⟩
    · rw [Code.HoldsBranches, Code.size_patchAll]
    · exact Nat.le_of_eq (Code.size_patchAll _ _ _).symm
    · intro j hj
      rw [Code.size_patchAll]
      exact Code.getElem?_patchAll_of_mem hj (hjumps j hj)
    · intro i _ hi
      exact Code.getElem?_patchAll_of_not_mem hi
    · rw [Code.brackets_patchAll]
      exact fun _ _ h => h
  | [n], jumps, code, code', h, hjumps => by
    rw [emitBranches] at h
    obtain ⟨exit, hn, h⟩ := bind_eq_ok h
    obtain rfl := Except.ok.inj h
    obtain ⟨hholds, hexit⟩ := emit_holds n _ _ hn
    refine ⟨?_, ?_, ?_, ?_, ?_⟩
    · rw [Code.HoldsBranches, Code.size_patchAll]
      exact hholds.congr (Code.agrees_patchAll fun j hj => Or.inl (hjumps j hj))
    · rw [Code.size_patchAll]
      exact hexit.le
    · intro j hj
      rw [Code.size_patchAll]
      exact Code.getElem?_patchAll_of_mem hj (Nat.lt_of_lt_of_le (hjumps j hj) hexit.le)
    · intro i hi hi'
      rw [Code.getElem?_patchAll_of_not_mem hi']
      exact hexit.agrees.instrs i (Nat.zero_le i) hi
    · rw [Code.brackets_patchAll]
      exact hexit.agrees.brackets
  | n :: m :: ns, jumps, code, code', h, hjumps => by
    rw [emitBranches_cons_cons] at h
    obtain ⟨pushed, hpush, h⟩ := bind_eq_ok h
    obtain ⟨body, hbody, h⟩ := bind_eq_ok h
    obtain ⟨next, hjump, h⟩ := bind_eq_ok h
    obtain ⟨hbody, hextends⟩ := emit_holds n _ _ hbody
    have hsize := Code.size_push hpush
    have hsize' := Code.size_push hjump
    have hle := hbody.le
    have hnext := Code.extends_push hjump
    have hcases : ∀ j ∈ body.size :: jumps, j = body.size ∨ j < code.size := by
      intro j hj
      rcases List.mem_cons.mp hj with rfl | hj
      · exact Or.inl rfl
      · exact Or.inr (hjumps j hj)
    obtain ⟨hmore, hexit, hjumps', hsame, hbrackets⟩ := emitBranches_branched (m :: ns) _ _ _ h (by
      intro j hj
      rw [Code.size_patch]
      have := hcases j hj
      omega)
    rw [Code.size_patch] at hmore hexit hsame
    have hall := ((Code.extends_push hpush).trans hextends).trans hnext
    -- The head of this branch is none of the jumps that are patched later.
    have hhead : code'.instrs[code.size]? = some (.split (code.size + 1) next.size) := by
      rw [hsame code.size (by omega), Code.getElem?_patch_self (by omega)]
      intro hmem
      have := hcases _ hmem
      omega
    -- Nothing between the head and the jump of this branch is written again.
    have hagrees : next.Agrees code' pushed.size body.size := by
      refine ⟨?_, hbrackets⟩
      intro i hi hi'
      rw [hsame i (by omega), Code.getElem?_patch_of_ne (by omega)]
      intro hmem
      have := hcases _ hmem
      omega
    refine ⟨?_, by omega, ?_, ?_, ?_⟩
    · rw [Code.HoldsBranches]
      refine ⟨body.size, ?_, ?_, hjumps' _ List.mem_cons_self, ?_⟩
      · rw [← hsize']
        exact hhead
      · rw [← hsize]
        exact (hnext.holds hbody).congr hagrees
      · rw [← hsize']
        exact hmore
    · intro j hj
      exact hjumps' j (List.mem_cons_of_mem _ hj)
    · intro i hi hi'
      rw [hsame i (by omega), Code.getElem?_patch_of_ne (by omega)]
      · exact hall.agrees.instrs i (Nat.zero_le i) hi
      · intro hmem
        rcases List.mem_cons.mp hmem with heq | hmem
        · omega
        · exact hi' hmem
    · intro i br hbr
      exact hbrackets i br (hall.agrees.brackets i br hbr)

end

end Node

/-! ## Programs -/

namespace Program

/-- A program as it is compiled from a pattern: the code of the whole match, which is group 0, and
behind it the place where the match is complete. -/
structure Compiled (p : Program) (pattern : Pattern) (exit : Nat) : Prop where
  holds : p.code.Holds (.group pattern.node 0 none) 0 exit
  accept : p.instrs[exit]? = some .accept
  prefilter : p.prefilter = pattern.node.prefilter
  groupNames : p.groupNames = pattern.groupNames

theorem compile_layout {p : Program} {pattern : Pattern} (h : compile limit pattern = .ok p) :
    ∃ exit, p.Compiled pattern exit ∧ p.instrs.size = exit + 1 := by
  obtain ⟨opened, hopen, h⟩ := bind_eq_ok h
  obtain ⟨last, hbody, h⟩ := bind_eq_ok h
  obtain ⟨closed, hclose, h⟩ := bind_eq_ok h
  obtain ⟨complete, haccept, h⟩ := bind_eq_ok h
  unfold checkSlots at h
  dsimp only at h
  split at h
  · simp at h
  obtain rfl := Except.ok.inj h
  have hgroup : (.group pattern.node 0 none : Node).emit limit {} = .ok closed := by
    rw [Node.emit, Nat.mul_zero, hopen]
    show (pattern.node.emit limit opened >>= fun code => code.push limit (.save 1)) = _
    rw [hbody]
    exact hclose
  obtain ⟨hholds, -⟩ := Node.emit_holds _ _ _ hgroup
  exact ⟨closed.size, ⟨(Code.extends_push haccept).holds hholds, Code.getElem?_push haccept, rfl,
    rfl⟩, Code.size_push haccept⟩

end Program

end LinearRegex
