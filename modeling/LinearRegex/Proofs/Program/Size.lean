import LinearRegex.Error
import LinearRegex.Proofs.Program.Emission

/-!
# How large programs are

How many instructions a piece takes is told by its shape, with all copies of the bodies of loops
written out. The limit is watched with every instruction, in the midst of those copies; still it
decides nothing but whether there is a program: under every limit that leaves room for all
instructions a pattern is compiled to the same program, and under every other it is refused.

Main statements: `Node.charges_emit` for the code of a piece, `Node.emit_numbered` for the numbers
of its brackets, and `Program.compile_within_limits` for a whole program.
-/

namespace LinearRegex

namespace Node

mutual

/-- The number of instructions that a piece takes. -/
def codeSize : Node → Nat
  | .empty => 0
  | .char _ _ => 1
  | .any => 1
  | .anyButNewline => 1
  | .bracket _ => 1
  | .assertion _ => 1
  | .cat nodes => codeSizeAll nodes
  | .alt branches => codeSizeAll branches + 2 * (branches.length - 1)
  | .loop body ⟨min, none, _⟩ => min * codeSize body + (codeSize body + 2)
  | .loop body ⟨min, some max, _⟩ => min * codeSize body + (max - min) * (codeSize body + 1)
  | .group body _ _ => codeSize body + 2

/-- The number of instructions that pieces in a row take. -/
def codeSizeAll : List Node → Nat
  | [] => 0
  | n :: ns => codeSize n + codeSizeAll ns

end

end Node

/-! ## Charging the limit -/

/-- A step of the compiler from some number of instructions to another. It comes to the same under
every limit that leaves room for them, and is refused under every other. -/
def Charged {α : Type} (start stop : Nat) (step : Nat → Except CompileError α) (result : α) :
    Prop :=
  ∀ limit, start ≤ limit →
    step limit = if stop ≤ limit then .ok result else .error (.programTooLarge limit)

/-- A step of the compiler that always writes so many instructions. -/
def Charges {α : Type} (size : α → Nat) (step : Nat → α → Except CompileError α) (k : Nat) : Prop :=
  ∀ a, ∃ a', size a' = size a + k ∧ Charged (size a) (size a') (step · a) a'

namespace Charged

variable {α β : Type} {start middle stop : Nat}

theorem pure (start : Nat) (a : α) : Charged start start (fun _ => .ok a) a :=
  fun _ h => (if_pos h).symm

/-- One step after the other charges what both charge. -/
theorem bind {step : Nat → Except CompileError α} {a : α}
    {next : Nat → α → Except CompileError β} {b : β} (h : Charged start middle step a)
    (h' : Charged middle stop (next · a) b) (hstop : middle ≤ stop) :
    Charged start stop (fun limit => step limit >>= next limit) b := by
  intro limit hlimit
  dsimp only
  rw [h limit hlimit]
  by_cases hmiddle : middle ≤ limit
  · rw [if_pos hmiddle]
    exact h' limit hmiddle
  · rw [if_neg hmiddle, if_neg (fun hle => hmiddle (Nat.le_trans hstop hle))]
    rfl

/-- What is done with the result of a step, if that charges nothing more. -/
theorem map {step : Nat → Except CompileError α} {a : α} (h : Charged start stop step a)
    (f : α → β) : Charged start stop (fun limit => step limit >>= fun a => .ok (f a)) (f a) := by
  have hpure : Charged stop stop (fun _ => Except.ok (f a)) (f a) := pure stop (f a)
  exact @bind _ _ _ _ _ _ _ (fun _ a => .ok (f a)) _ h hpure (Nat.le_refl stop)

end Charged

namespace Charges

variable {α : Type} {size : α → Nat} {step next : Nat → α → Except CompileError α} {k l : Nat}

theorem pure (size : α → Nat) : Charges size (fun _ a => .ok a) 0 :=
  fun a => ⟨a, rfl, .pure _ a⟩

theorem bind (h : Charges size step k) (h' : Charges size next l) :
    Charges size (fun limit a => step limit a >>= next limit) (k + l) := by
  intro a
  obtain ⟨b, hb, hstep⟩ := h a
  obtain ⟨c, hc, hnext⟩ := h' b
  exact ⟨c, by omega, hstep.bind hnext (by omega)⟩

/-- Every repetition is charged. -/
theorem times (h : Charges size step k) (m : Nat) :
    Charges size (fun limit => LinearRegex.times (step limit) m) (m * k) := by
  induction m with
  | zero =>
    rw [Nat.zero_mul]
    exact pure size
  | succ m ih =>
    rw [Nat.add_mul, Nat.one_mul, Nat.add_comm (m * k)]
    exact h.bind ih

end Charges

namespace Code

/-- An instruction is charged as one. -/
theorem charges_push (i : Instr) : Charges size (fun limit code => push limit code i) 1 := by
  intro code
  have hsize : ({ code with instrs := code.instrs.push i } : Code).size = code.size + 1 :=
    Array.size_push i
  refine ⟨_, hsize, fun limit _ => ?_⟩
  rw [hsize]
  by_cases h : code.size + 1 ≤ limit
  · rw [if_pos h]
    exact if_neg (Nat.not_le.mpr h)
  · rw [if_neg h]
    exact if_pos (Nat.le_of_not_lt h)

theorem charges_pushBracket (b : Bracket) :
    Charges size (fun limit code => pushBracket limit code b) 1 := by
  intro code
  exact charges_push (.bracket code.brackets.size) { code with brackets := code.brackets.push b }

end Code

/-! ## The whole tree -/

namespace Node

variable {step : Nat → Code → Except CompileError Code} {k : Nat}

/-- An optional iteration is charged for its split as well. -/
theorem charges_optionStep (h : Charges Code.size step k) :
    Charges (fun x : List Nat × Code => x.2.size)
      (fun limit => Code.optionStep limit (step limit)) (k + 1) := by
  rintro ⟨heads, code⟩
  obtain ⟨pushed, hpushed, hpush⟩ := Code.charges_push (.jump 0) code
  obtain ⟨body, hbody, hstep⟩ := h pushed
  refine ⟨(code.size :: heads, body), ?_, ?_⟩
  · dsimp only
    omega
  · refine hpush.bind ?_ (by dsimp only; omega)
    exact hstep.map fun code' => (code.size :: heads, code')

theorem codeSize_sequence (ns : List Node) : (sequence ns).codeSize = codeSizeAll ns := by
  match ns with
  | [] =>
    unfold sequence
    rw [codeSize, codeSizeAll]
  | [n] =>
    unfold sequence
    rw [codeSizeAll, codeSizeAll, Nat.add_zero]
  | _ :: _ :: _ =>
    unfold sequence
    rw [codeSize]

theorem codeSize_branches (n m : Node) (ns : List Node) :
    codeSizeAll (n :: m :: ns) + 2 * ((n :: m :: ns).length - 1) =
      codeSize n + 2 + (codeSizeAll (m :: ns) + 2 * ((m :: ns).length - 1)) := by
  rw [codeSizeAll]
  simp only [List.length_cons]
  omega

mutual

/-- **The code of a piece is charged as its shape tells.** -/
theorem charges_emit : ∀ n : Node, Charges Code.size (fun limit => emit limit n) n.codeSize
  | .empty => by
    simp only [emit, codeSize]
    exact .pure _
  | .char c ignoreCase => by
    simp only [emit, codeSize]
    exact Code.charges_push _
  | .any => by
    simp only [emit, codeSize]
    exact Code.charges_push _
  | .anyButNewline => by
    simp only [emit, codeSize]
    exact Code.charges_push _
  | .bracket b => by
    simp only [emit, codeSize]
    exact Code.charges_pushBracket b
  | .assertion a => by
    simp only [emit, codeSize]
    exact Code.charges_push _
  | .cat nodes => by
    simp only [emit, codeSize]
    exact charges_emitAll nodes
  | .alt branches => by
    simp only [emit, codeSize]
    exact charges_emitBranches branches []
  | .loop body ⟨min, none, greedy⟩ => by
    intro code
    obtain ⟨start, hstart, hmin⟩ := (charges_emit body).times min code
    obtain ⟨pushed, hpushed, hpush⟩ := Code.charges_push (.jump 0) start
    obtain ⟨back, hback, hbody⟩ := charges_emit body pushed
    obtain ⟨exit, hexit, hjump⟩ := Code.charges_push (.jump start.size) back
    refine ⟨exit.patch start.size (loopSplit greedy exit.size start.size), ?_, ?_⟩
    · rw [Code.size_patch, codeSize]
      omega
    · simp only [emit, Code.size_patch]
      refine hmin.bind (hpush.bind (hbody.bind ?_ (by omega)) (by omega)) (by omega)
      exact hjump.map fun code => code.patch start.size (loopSplit greedy code.size start.size)
  | .loop body ⟨min, some max, greedy⟩ => by
    intro code
    obtain ⟨start, hstart, hmin⟩ := (charges_emit body).times min code
    obtain ⟨⟨heads, exit⟩, hexit, hmore⟩ :=
      (charges_optionStep (charges_emit body)).times (max - min) ([], start)
    dsimp only at hexit
    refine ⟨exit.patchAll heads (loopSplit greedy exit.size), ?_, ?_⟩
    · rw [Code.size_patchAll, codeSize]
      omega
    · simp only [emit_loop_some, Code.size_patchAll]
      refine hmin.bind ?_ (by omega)
      exact hmore.map fun x => x.2.patchAll x.1 (loopSplit greedy x.2.size)
  | .group body index _ => by
    simp only [emit, codeSize]
    rw [show body.codeSize + 2 = 1 + (body.codeSize + 1) by omega]
    exact (Code.charges_push _).bind ((charges_emit body).bind (Code.charges_push _))

theorem charges_emitAll : ∀ ns : List Node,
    Charges Code.size (fun limit => emitAll limit ns) (codeSizeAll ns)
  | [] => by
    simp only [emitAll, codeSizeAll]
    exact .pure _
  | n :: ns => by
    simp only [emitAll, codeSizeAll]
    exact (charges_emit n).bind (charges_emitAll ns)

theorem charges_emitBranches : ∀ (ns : List Node) (jumps : List Nat),
    Charges Code.size (fun limit => emitBranches limit ns jumps)
      (codeSizeAll ns + 2 * (ns.length - 1))
  | [], jumps => by
    intro code
    simp only [emitBranches, codeSizeAll]
    exact ⟨_, Code.size_patchAll _ _ _, by rw [Code.size_patchAll]; exact .pure _ _⟩
  | [n], jumps => by
    intro code
    obtain ⟨exit, hexit, hn⟩ := charges_emit n code
    refine ⟨exit.patchAll jumps fun _ => .jump exit.size, ?_, ?_⟩
    · rw [Code.size_patchAll, codeSizeAll, codeSizeAll]
      exact hexit
    · simp only [emitBranches, Code.size_patchAll]
      exact hn.map fun code => code.patchAll jumps fun _ => .jump code.size
  | n :: m :: ns, jumps => by
    intro code
    obtain ⟨pushed, hpushed, hpush⟩ := Code.charges_push (.split 0 0) code
    obtain ⟨body, hbody, hn⟩ := charges_emit n pushed
    obtain ⟨next, hnext, hjump⟩ := Code.charges_push (.jump 0) body
    obtain ⟨exit, hexit, hmore⟩ := charges_emitBranches (m :: ns) (body.size :: jumps)
      (next.patch code.size (.split (code.size + 1) next.size))
    rw [Code.size_patch] at hexit hmore
    refine ⟨exit, ?_, ?_⟩
    · rw [codeSize_branches]
      omega
    · simp only [emitBranches_cons_cons]
      exact hpush.bind (hn.bind (hjump.bind hmore (by omega)) (by omega)) (by omega)

end

end Node

/-! ## The numbers of brackets -/

/-- The number of the bracket that an instruction refers to. -/
def Instr.bracketIndex? : Instr → Option Nat
  | .bracket index => some index
  | _ => none

theorem filterMap_set {α β : Type} {f : α → Option β} {l : List α} {i : Nat} {old new : α}
    (hold : l[i]? = some old) (h : f old = none) (h' : f new = none) :
    (l.set i new).filterMap f = l.filterMap f := by
  induction l generalizing i with
  | nil => rfl
  | cons a l ih =>
    cases i with
    | zero =>
      obtain rfl := Option.some.inj hold
      rw [List.set_cons_zero, List.filterMap_cons_none h, List.filterMap_cons_none h']
    | succ i =>
      rw [List.set_cons_succ, List.filterMap_cons, List.filterMap_cons, ih hold]

namespace Code

variable {code code' : Code} {limit place : Nat} {i : Instr}

/-- Every bracket is referred to by one instruction, and the brackets are numbered in the order of
these instructions. -/
def Numbered (code : Code) : Prop :=
  code.instrs.toList.filterMap Instr.bracketIndex? = List.range code.brackets.size

/-- An instruction that refers to no bracket stands at a place. -/
def Free (code : Code) (place : Nat) : Prop :=
  ∃ i, code.instrs[place]? = some i ∧ i.bracketIndex? = none

theorem Free.extends (h : code.Free place) (hext : code.Extends code') : code'.Free place := by
  obtain ⟨i, hi, hfree⟩ := h
  exact ⟨i, hext.getElem? hi, hfree⟩

theorem Free.patch (h : code.Free place) (other : Nat) (hi : i.bracketIndex? = none) :
    (code.patch other i).Free place := by
  obtain ⟨j, hj, hfree⟩ := h
  by_cases heq : place = other
  · subst heq
    exact ⟨i, getElem?_patch_self (Array.getElem?_eq_some_iff.mp hj).1, hi⟩
  · exact ⟨j, (getElem?_patch_of_ne heq).trans hj, hfree⟩

theorem free_push (h : code.push limit i = .ok code') (hi : i.bracketIndex? = none) :
    code'.Free code.size := ⟨i, getElem?_push h, hi⟩

theorem bracketIndex?_loopSplit (greedy : Bool) (exit head : Nat) :
    (loopSplit greedy exit head).bracketIndex? = none := by
  cases greedy <;> rfl

namespace Numbered

theorem init : ({} : Code).Numbered := rfl

theorem push (h : code.Numbered) (hpush : code.push limit i = .ok code')
    (hi : i.bracketIndex? = none) : code'.Numbered := by
  rw [push_eq_ok hpush, Numbered, Array.toList_push, List.filterMap_append,
    List.filterMap_cons_none hi, List.filterMap_nil, List.append_nil]
  exact h

theorem pushBracket (h : code.Numbered) {b : Bracket}
    (hpush : code.pushBracket limit b = .ok code') : code'.Numbered := by
  rw [push_eq_ok hpush, Numbered]
  dsimp only
  rw [Array.toList_push, List.filterMap_append, h, Array.size_push, List.range_succ]
  rfl

/-- A place that refers to no bracket can be patched. -/
theorem patch (h : code.Numbered) (hfree : code.Free place) (hi : i.bracketIndex? = none) :
    (code.patch place i).Numbered := by
  obtain ⟨old, hold, hfree⟩ := hfree
  rw [← Array.getElem?_toList] at hold
  rw [Numbered, Code.patch]
  dsimp only
  rw [Array.toList_setIfInBounds, filterMap_set hold hfree hi]
  exact h

theorem patchAll {places : List Nat} {f : Nat → Instr} (h : code.Numbered)
    (hfree : ∀ place ∈ places, code.Free place) (hf : ∀ place, (f place).bracketIndex? = none) :
    (code.patchAll places f).Numbered := by
  induction places generalizing code with
  | nil => exact h
  | cons place places ih =>
    obtain ⟨hplace, hplaces⟩ := List.forall_mem_cons.mp hfree
    exact ih (h.patch hplace (hf place)) fun other hother =>
      (hplaces other hother).patch place (hf place)

variable {step : Code → Except CompileError Code} {n : Node}

theorem times (h : code.Numbered)
    (hstep : ∀ code code', step code = .ok code' → code.Numbered → code'.Numbered) {m : Nat}
    (hrun : LinearRegex.times step m code = .ok code') : code'.Numbered := by
  induction m generalizing code with
  | zero =>
    obtain rfl : code = code' := Except.ok.inj hrun
    exact h
  | succ m ih =>
    obtain ⟨next, hnext, hrun⟩ := bind_eq_ok hrun
    exact ih (hstep code next hnext h) hrun

/-- The splits of optional iterations are free to be patched. -/
theorem options (h : code.Numbered) (hw : Writes step n)
    (hstep : ∀ code code', step code = .ok code' → code.Numbered → code'.Numbered) {m : Nat}
    {heads heads' : List Nat} (hheads : ∀ head ∈ heads, code.Free head)
    (hrun : LinearRegex.times (optionStep limit step) m (heads, code) = .ok (heads', code')) :
    code'.Numbered ∧ ∀ head ∈ heads', code'.Free head := by
  induction m generalizing code heads with
  | zero =>
    obtain ⟨rfl, rfl⟩ := Prod.mk.inj (Except.ok.inj hrun)
    exact ⟨h, hheads⟩
  | succ m ih =>
    obtain ⟨⟨heads₁, next⟩, hfirst, hrun⟩ := bind_eq_ok hrun
    obtain ⟨pushed, hpush, hbody, rfl⟩ := optionStep_eq_ok hfirst
    obtain ⟨-, hnext⟩ := hw pushed next hbody
    refine ih (hstep pushed next hbody (h.push hpush rfl)) ?_ hrun
    refine List.forall_mem_cons.mpr ⟨(free_push hpush rfl).extends hnext, fun head hhead => ?_⟩
    exact ((hheads head hhead).extends (extends_push hpush)).extends hnext

end Numbered

end Code

namespace Node

variable {limit : Nat}

mutual

/-- **Every bracket of a piece gets an instruction and a number of its own.** -/
theorem emit_numbered : ∀ (n : Node) (code code' : Code), emit limit n code = .ok code' →
    code.Numbered → code'.Numbered
  | .empty, code, code', h, hcode => by
    rw [emit] at h
    obtain rfl := Except.ok.inj h
    exact hcode
  | .char c ignoreCase, code, code', h, hcode => by
    rw [emit] at h
    exact hcode.push h (by cases ignoreCase <;> rfl)
  | .any, code, code', h, hcode => by
    rw [emit] at h
    exact hcode.push h rfl
  | .anyButNewline, code, code', h, hcode => by
    rw [emit] at h
    exact hcode.push h rfl
  | .bracket b, code, code', h, hcode => by
    rw [emit] at h
    exact hcode.pushBracket h
  | .assertion a, code, code', h, hcode => by
    rw [emit] at h
    exact hcode.push h rfl
  | .cat nodes, code, code', h, hcode => by
    rw [emit] at h
    exact emitAll_numbered nodes code code' h hcode
  | .alt branches, code, code', h, hcode => by
    rw [emit] at h
    exact emitBranches_numbered branches [] code code' h (by simp) hcode
  | .loop body ⟨min, none, greedy⟩, code, code', h, hcode => by
    rw [emit] at h
    obtain ⟨start, hmin, h⟩ := bind_eq_ok h
    obtain ⟨pushed, hpush, h⟩ := bind_eq_ok h
    obtain ⟨back, hbody, h⟩ := bind_eq_ok h
    obtain ⟨exit, hjump, h⟩ := bind_eq_ok h
    obtain rfl := Except.ok.inj h
    obtain ⟨-, hback⟩ := emit_holds body _ _ hbody
    have hstart := hcode.times (emit_numbered body) hmin
    have hexit := (emit_numbered body _ _ hbody (hstart.push hpush rfl)).push hjump rfl
    refine hexit.patch ?_ (Code.bracketIndex?_loopSplit _ _ _)
    exact ((Code.free_push hpush rfl).extends hback).extends (Code.extends_push hjump)
  | .loop body ⟨min, some max, greedy⟩, code, code', h, hcode => by
    rw [emit_loop_some] at h
    obtain ⟨start, hmin, h⟩ := bind_eq_ok h
    obtain ⟨⟨heads, exit⟩, hoptions, h⟩ := bind_eq_ok h
    obtain rfl := Except.ok.inj h
    have hstart := hcode.times (emit_numbered body) hmin
    obtain ⟨hexit, hfree⟩ :=
      hstart.options (emit_holds body) (emit_numbered body) (by simp) hoptions
    exact hexit.patchAll hfree (Code.bracketIndex?_loopSplit _ _)
  | .group body index _, code, code', h, hcode => by
    rw [emit] at h
    obtain ⟨opened, hopen, h⟩ := bind_eq_ok h
    obtain ⟨last, hbody, hclose⟩ := bind_eq_ok h
    exact (emit_numbered body _ _ hbody (hcode.push hopen rfl)).push hclose rfl

theorem emitAll_numbered : ∀ (ns : List Node) (code code' : Code),
    emitAll limit ns code = .ok code' → code.Numbered → code'.Numbered
  | [], code, code', h, hcode => by
    rw [emitAll] at h
    obtain rfl := Except.ok.inj h
    exact hcode
  | n :: ns, code, code', h, hcode => by
    rw [emitAll] at h
    obtain ⟨next, hn, h⟩ := bind_eq_ok h
    exact emitAll_numbered ns _ _ h (emit_numbered n _ _ hn hcode)

theorem emitBranches_numbered : ∀ (ns : List Node) (jumps : List Nat) (code code' : Code),
    emitBranches limit ns jumps code = .ok code' → (∀ j ∈ jumps, code.Free j) →
    code.Numbered → code'.Numbered
  | [], jumps, code, code', h, hjumps, hcode => by
    rw [emitBranches] at h
    obtain rfl := Except.ok.inj h
    exact hcode.patchAll hjumps fun _ => rfl
  | [n], jumps, code, code', h, hjumps, hcode => by
    rw [emitBranches] at h
    obtain ⟨exit, hn, h⟩ := bind_eq_ok h
    obtain rfl := Except.ok.inj h
    obtain ⟨-, hexit⟩ := emit_holds n _ _ hn
    refine (emit_numbered n _ _ hn hcode).patchAll (fun j hj => ?_) fun _ => rfl
    exact (hjumps j hj).extends hexit
  | n :: m :: ns, jumps, code, code', h, hjumps, hcode => by
    rw [emitBranches_cons_cons] at h
    obtain ⟨pushed, hpush, h⟩ := bind_eq_ok h
    obtain ⟨body, hn, h⟩ := bind_eq_ok h
    obtain ⟨next, hjump, h⟩ := bind_eq_ok h
    obtain ⟨-, hbody⟩ := emit_holds n _ _ hn
    have hnext := (emit_numbered n _ _ hn (hcode.push hpush rfl)).push hjump rfl
    have hall := hbody.trans (Code.extends_push hjump)
    refine emitBranches_numbered (m :: ns) _ _ _ h ?_
      (hnext.patch ((Code.free_push hpush rfl).extends hall) rfl)
    refine List.forall_mem_cons.mpr ⟨(Code.free_push hjump rfl).patch _ rfl, fun j hj => ?_⟩
    exact (((hjumps j hj).extends (Code.extends_push hpush)).extends hall).patch _ rfl

end

end Node

/-! ## Programs -/

namespace Program

/-- The code of a whole pattern: the whole match is recorded, and then it is complete. -/
def assemble (limit : Nat) (pattern : Pattern) : Except CompileError Code :=
  ({} : Code).push limit (.save 0) >>= fun code =>
    pattern.node.emit limit code >>= fun code =>
      code.push limit (.save 1) >>= fun code => code.push limit .accept

/-- The program of a pattern with this code. -/
def ofCode (pattern : Pattern) (code : Code) : Program where
  instrs := code.instrs
  brackets := code.brackets
  prefilter := pattern.node.prefilter
  groupNames := pattern.groupNames
  flags := pattern.flags

theorem compile_eq_assemble (limit : Nat) (pattern : Pattern) :
    compile limit pattern =
      assemble limit pattern >>= fun code => checkSlots limit (ofCode pattern code) := by
  simp only [compile, assemble, bind_assoc]
  rfl

theorem charged_assemble (pattern : Pattern) :
    ∃ code : Code, code.size = 3 + pattern.node.codeSize ∧
      Charged 0 (3 + pattern.node.codeSize) (assemble · pattern) code := by
  obtain ⟨code, hcode, h⟩ := (Code.charges_push (.save 0)).bind
    ((Node.charges_emit pattern.node).bind
      ((Code.charges_push (.save 1)).bind (Code.charges_push .accept))) {}
  have hempty : ({} : Code).size = 0 := rfl
  have hsize : code.size = 3 + pattern.node.codeSize := by omega
  exact ⟨code, hsize, hsize ▸ h⟩

theorem assemble_numbered {limit : Nat} {pattern : Pattern} {code : Code}
    (h : assemble limit pattern = .ok code) : code.Numbered := by
  obtain ⟨opened, hopen, h⟩ := bind_eq_ok h
  obtain ⟨last, hbody, h⟩ := bind_eq_ok h
  obtain ⟨closed, hclose, haccept⟩ := bind_eq_ok h
  have hopened := Code.Numbered.init.push hopen rfl
  have hlast := Node.emit_numbered _ _ _ hbody hopened
  exact (hlast.push hclose rfl).push haccept rfl

/-- Whether a limit leaves room for the instructions of a pattern, and for the slots of all its
groups at each of them. -/
def Fits (limit : Nat) (pattern : Pattern) : Prop :=
  3 + pattern.node.codeSize ≤ limit ∧
    min ((3 + pattern.node.codeSize) * (2 * pattern.groupNames.size)) countCeiling ≤
      min (4 * limit) countCeiling

/-- Where there is room for the instructions, the number of slots decides. -/
theorem compile_of_assemble {limit : Nat} {pattern : Pattern} {code : Code}
    (h : assemble limit pattern = .ok code) (hsize : code.size = 3 + pattern.node.codeSize) :
    compile limit pattern =
      let entries := min ((3 + pattern.node.codeSize) * (2 * pattern.groupNames.size)) countCeiling
      let allowed := min (4 * limit) countCeiling
      if allowed < entries then .error (.slotTableTooLarge entries allowed)
      else .ok (ofCode pattern code) := by
  have hentries : (ofCode pattern code).instrs.size * (ofCode pattern code).slotCount =
      (3 + pattern.node.codeSize) * (2 * pattern.groupNames.size) :=
    congrArg (· * _) hsize
  rw [compile_eq_assemble, h]
  show checkSlots limit (ofCode pattern code) = _
  rw [checkSlots, hentries, slotFactor, Nat.mul_comm limit 4]

theorem exists_compile_of_fits {limit : Nat} {pattern : Pattern} (h : Fits limit pattern) :
    ∃ p, compile limit pattern = .ok p := by
  obtain ⟨hroom, hle⟩ := h
  obtain ⟨code, hsize, hcharged⟩ := charged_assemble pattern
  have hcode := (hcharged limit (Nat.zero_le limit)).trans (if_pos hroom)
  exact ⟨_, (compile_of_assemble hcode hsize).trans (if_neg (Nat.not_lt.mpr hle))⟩

/-- **A limit decides whether a pattern is compiled, and nothing else.** There is one program for
each pattern, of the size that the shape of the pattern tells and with an instruction for every
bracket. Every limit into which it fits gives this program, and every other gives an error that
blames no place. -/
theorem compile_within_limits (pattern : Pattern) : ∃ p : Program,
    p.instrs.size = 3 + pattern.node.codeSize ∧
      p.instrs.toList.filterMap Instr.bracketIndex? = List.range p.brackets.size ∧
      ∀ limit, (Fits limit pattern → compile limit pattern = .ok p) ∧
        (¬ Fits limit pattern →
          ∃ e, compile limit pattern = .error e ∧ (Error.compile e).offset? = none) := by
  obtain ⟨code, hsize, hcharged⟩ := charged_assemble pattern
  have hcode : ∀ limit, 3 + pattern.node.codeSize ≤ limit → assemble limit pattern = .ok code :=
    fun limit h => (hcharged limit (Nat.zero_le limit)).trans (if_pos h)
  have hnumbered := assemble_numbered (hcode _ (Nat.le_refl _))
  refine ⟨ofCode pattern code, hsize, hnumbered, fun limit => ⟨?_, fun hfits => ?_⟩⟩
  · rintro ⟨hroom, hle⟩
    rw [compile_of_assemble (hcode limit hroom) hsize]
    exact if_neg (Nat.not_lt.mpr hle)
  · by_cases hroom : 3 + pattern.node.codeSize ≤ limit
    · have hlt := Nat.not_le.mp fun hle => hfits ⟨hroom, hle⟩
      rw [compile_of_assemble (hcode limit hroom) hsize]
      exact ⟨_, if_pos hlt, rfl⟩
    · refine ⟨.programTooLarge limit, ?_, rfl⟩
      rw [compile_eq_assemble]
      have h : assemble limit pattern = .error (.programTooLarge limit) :=
        (hcharged limit (Nat.zero_le limit)).trans (if_neg hroom)
      rw [h]
      rfl

end Program

end LinearRegex
