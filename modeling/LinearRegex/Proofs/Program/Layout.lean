import LinearRegex.Program.Compile
import LinearRegex.Proofs.Pattern.Denotation

/-!
# How the code of a pattern is laid out

The code of a piece stands between two places of a program: which instructions stand there and where
they lead is told by the shape of the piece. Only what stands between the two places matters, so
code that is written or patched elsewhere leaves it as it is.

Main statement: code that agrees between the two places holds the same piece (`Code.Holds.congr`).
-/

namespace LinearRegex

namespace Code

/-- The code of optional iterations, each nested in the one before: all splits lead to one exit. -/
def HoldsOptions (code : Code) (greedy : Bool) (exit : Nat) (body : Nat → Nat → Prop) :
    Nat → Nat → Prop
  | 0, head => head = exit
  | n + 1, head =>
    code.instrs[head]? = some (loopSplit greedy exit head) ∧
      ∃ next, body (head + 1) next ∧ HoldsOptions code greedy exit body n next

mutual

/-- Whether the code of a piece stands between two places. -/
def Holds (code : Code) : Node → Nat → Nat → Prop
  | .empty, a, b => a = b
  | .char c ignoreCase, a, b =>
    code.instrs[a]? = some (if ignoreCase then .foldedChar c else .char c) ∧ b = a + 1
  | .any, a, b => code.instrs[a]? = some .any ∧ b = a + 1
  | .anyButNewline, a, b => code.instrs[a]? = some .anyButNewline ∧ b = a + 1
  | .bracket br, a, b =>
    ∃ index, code.instrs[a]? = some (.bracket index) ∧ code.brackets[index]? = some br ∧ b = a + 1
  | .assertion s, a, b => code.instrs[a]? = some (.assertion s) ∧ b = a + 1
  | .cat nodes, a, b => HoldsAll code nodes a b
  | .alt branches, a, b => HoldsBranches code branches a b
  | .loop body ⟨min, none, greedy⟩, a, b =>
    ∃ head back, Iterate (Holds code body) min a head ∧
      code.instrs[head]? = some (loopSplit greedy b head) ∧ Holds code body (head + 1) back ∧
      code.instrs[back]? = some (.jump head) ∧ b = back + 1
  | .loop body ⟨min, some max, greedy⟩, a, b =>
    ∃ head, Iterate (Holds code body) min a head ∧
      HoldsOptions code greedy b (Holds code body) (max - min) head
  | .group body index _, a, b =>
    ∃ last, code.instrs[a]? = some (.save (2 * index)) ∧ Holds code body (a + 1) last ∧
      code.instrs[last]? = some (.save (2 * index + 1)) ∧ b = last + 1

/-- Whether the code of pieces in a row stands between two places. -/
def HoldsAll (code : Code) : List Node → Nat → Nat → Prop
  | [], a, b => a = b
  | n :: ns, a, b => ∃ m, Holds code n a m ∧ HoldsAll code ns m b

/-- Whether the code of branches stands between two places. -/
def HoldsBranches (code : Code) : List Node → Nat → Nat → Prop
  | [], a, b => a = b
  | n :: ns, a, b =>
    match ns with
    | [] => Holds code n a b
    | _ :: _ =>
      ∃ last, code.instrs[a]? = some (.split (a + 1) (last + 1)) ∧ Holds code n (a + 1) last ∧
        code.instrs[last]? = some (.jump b) ∧ HoldsBranches code ns (last + 1) b

end

/-- Code that agrees with other code between two places, and has all its brackets. -/
structure Agrees (code code' : Code) (a b : Nat) : Prop where
  instrs : ∀ i : Nat, a ≤ i → i < b → code'.instrs[i]? = code.instrs[i]?
  brackets : ∀ (i : Nat) (br : Bracket), code.brackets[i]? = some br →
    code'.brackets[i]? = some br

end Code

variable {code code' code'' : Code} {a b c d limit : Nat}

/-! ## Code stands onward -/

theorem Iterate.le {R : Nat → Nat → Prop} {n : Nat} (hle : ∀ x y, R x y → x ≤ y)
    (h : Iterate R n a b) : a ≤ b :=
  h.preserves (P := (a ≤ ·)) (Nat.le_refl a) fun x y hx hy => Nat.le_trans hx (hle x y hy)

namespace Code

theorem HoldsOptions.le {greedy : Bool} {exit n head : Nat} {R : Nat → Nat → Prop}
    (hle : ∀ x y, R x y → x ≤ y) (h : code.HoldsOptions greedy exit R n head) : head ≤ exit := by
  induction n generalizing head with
  | zero => exact Nat.le_of_eq h
  | succ n ih =>
    obtain ⟨-, next, hbody, h⟩ := h
    have := hle _ _ hbody
    have := ih h
    omega

mutual

theorem Holds.le : ∀ {n : Node} {a b : Nat}, code.Holds n a b → a ≤ b
  | .empty, _, _, h => by
    rw [Holds] at h
    omega
  | .char _ _, _, _, h => by
    rw [Holds] at h
    omega
  | .any, _, _, h => by
    rw [Holds] at h
    omega
  | .anyButNewline, _, _, h => by
    rw [Holds] at h
    omega
  | .bracket _, _, _, h => by
    rw [Holds] at h
    obtain ⟨_, -, -, h⟩ := h
    omega
  | .assertion _, _, _, h => by
    rw [Holds] at h
    omega
  | .cat _, _, _, h => by
    rw [Holds] at h
    exact HoldsAll.le h
  | .alt _, _, _, h => by
    rw [Holds] at h
    exact HoldsBranches.le h
  | .loop _ ⟨_, none, _⟩, _, _, h => by
    rw [Holds] at h
    obtain ⟨head, back, hmin, -, hbody, -, rfl⟩ := h
    have := hmin.le fun x y => Holds.le
    have := Holds.le hbody
    omega
  | .loop _ ⟨_, some _, _⟩, _, _, h => by
    rw [Holds] at h
    obtain ⟨head, hmin, hmore⟩ := h
    have := hmin.le fun x y => Holds.le
    have := hmore.le fun x y => Holds.le
    omega
  | .group _ _ _, _, _, h => by
    rw [Holds] at h
    obtain ⟨last, -, hbody, -, rfl⟩ := h
    have := Holds.le hbody
    omega

theorem HoldsAll.le : ∀ {ns : List Node} {a b : Nat}, code.HoldsAll ns a b → a ≤ b
  | [], _, _, h => by
    rw [HoldsAll] at h
    omega
  | _ :: _, _, _, h => by
    rw [HoldsAll] at h
    obtain ⟨m, hm, h⟩ := h
    exact Nat.le_trans (Holds.le hm) (HoldsAll.le h)

theorem HoldsBranches.le : ∀ {ns : List Node} {a b : Nat}, code.HoldsBranches ns a b → a ≤ b
  | [], _, _, h => by
    rw [HoldsBranches] at h
    omega
  | [_], _, _, h => by
    rw [HoldsBranches] at h
    exact Holds.le h
  | _ :: _ :: _, _, _, h => by
    rw [HoldsBranches] at h
    obtain ⟨last, -, hm, -, h⟩ := h
    have := Holds.le hm
    have := HoldsBranches.le h
    omega

end

/-! ## Only what stands between the places matters -/

namespace Agrees

theorem refl (code : Code) (a b : Nat) : code.Agrees code a b :=
  ⟨fun _ _ _ => rfl, fun _ _ h => h⟩

theorem mono (h : code.Agrees code' a d) (hb : a ≤ b) (hc : c ≤ d) : code.Agrees code' b c :=
  ⟨fun i hi hi' => h.instrs i (Nat.le_trans hb hi) (Nat.lt_of_lt_of_le hi' hc), h.brackets⟩

theorem trans (h : code.Agrees code' a b) (h' : code'.Agrees code'' a b) :
    code.Agrees code'' a b :=
  ⟨fun i hi hi' => (h'.instrs i hi hi').trans (h.instrs i hi hi'),
    fun i br hbr => h'.brackets i br (h.brackets i br hbr)⟩

end Agrees

end Code

theorem Iterate.imp_within {R R' : Nat → Nat → Prop} {n : Nat} (h : Iterate R n a b)
    (hle : ∀ x y, R x y → x ≤ y) (hR : ∀ x y, a ≤ x → y ≤ b → R x y → R' x y) :
    Iterate R' n a b := by
  induction n generalizing a with
  | zero => exact h
  | succ n ih =>
    obtain ⟨m, hm, h⟩ := h
    have ham := hle a m hm
    exact ⟨m, hR a m (Nat.le_refl a) (h.le hle) hm,
      ih h fun x y hx => hR x y (Nat.le_trans ham hx)⟩

namespace Code

theorem HoldsOptions.imp_within {greedy : Bool} {exit n head : Nat} {R R' : Nat → Nat → Prop}
    (h : code.HoldsOptions greedy exit R n head) (hagrees : code.Agrees code' head exit)
    (hle : ∀ x y, R x y → x ≤ y) (hR : ∀ x y, head ≤ x → y ≤ exit → R x y → R' x y) :
    code'.HoldsOptions greedy exit R' n head := by
  induction n generalizing head with
  | zero => exact h
  | succ n ih =>
    obtain ⟨hsplit, next, hbody, h⟩ := h
    have hnext := hle _ _ hbody
    have hexit := h.le hle
    refine ⟨?_, next, hR _ _ (by omega) hexit hbody, ?_⟩
    · rw [hagrees.instrs head (by omega) (by omega)]
      exact hsplit
    · exact ih h (hagrees.mono (by omega) (Nat.le_refl _)) fun x y hx => hR x y (by omega)

mutual

theorem Holds.congr : ∀ {n : Node} {a b : Nat}, code.Holds n a b → code.Agrees code' a b →
    code'.Holds n a b
  | .empty, _, _, h, _ => by
    rw [Holds] at h ⊢
    exact h
  | .char _ _, _, _, h, hagrees => by
    rw [Holds] at h ⊢
    rw [hagrees.instrs _ (by omega) (by omega)]
    exact h
  | .any, _, _, h, hagrees => by
    rw [Holds] at h ⊢
    rw [hagrees.instrs _ (by omega) (by omega)]
    exact h
  | .anyButNewline, _, _, h, hagrees => by
    rw [Holds] at h ⊢
    rw [hagrees.instrs _ (by omega) (by omega)]
    exact h
  | .bracket _, _, _, h, hagrees => by
    rw [Holds] at h ⊢
    obtain ⟨index, hi, hbr, rfl⟩ := h
    rw [hagrees.instrs _ (by omega) (by omega)]
    exact ⟨index, hi, hagrees.brackets _ _ hbr, rfl⟩
  | .assertion _, _, _, h, hagrees => by
    rw [Holds] at h ⊢
    rw [hagrees.instrs _ (by omega) (by omega)]
    exact h
  | .cat _, _, _, h, hagrees => by
    rw [Holds] at h ⊢
    exact HoldsAll.congr h hagrees
  | .alt _, _, _, h, hagrees => by
    rw [Holds] at h ⊢
    exact HoldsBranches.congr h hagrees
  | .loop _ ⟨_, none, _⟩, a, _, h, hagrees => by
    rw [Holds] at h ⊢
    obtain ⟨head, back, hmin, hsplit, hbody, hjump, rfl⟩ := h
    have hhead := hmin.le fun x y => Holds.le
    have hback := hbody.le
    refine ⟨head, back, hmin.imp_within (fun x y => Holds.le) fun x y hx hy hxy => ?_, ?_, ?_, ?_,
      rfl⟩
    · exact Holds.congr hxy (hagrees.mono hx (by omega))
    · rw [hagrees.instrs _ (by omega) (by omega)]
      exact hsplit
    · exact Holds.congr hbody (hagrees.mono (by omega) (by omega))
    · rw [hagrees.instrs _ (by omega) (by omega)]
      exact hjump
  | .loop _ ⟨_, some _, _⟩, _, _, h, hagrees => by
    rw [Holds] at h ⊢
    obtain ⟨head, hmin, hmore⟩ := h
    have hhead := hmin.le fun x y => Holds.le
    have hexit := hmore.le fun x y => Holds.le
    refine ⟨head, hmin.imp_within (fun x y => Holds.le) fun x y hx hy hxy => ?_,
      hmore.imp_within (hagrees.mono hhead (Nat.le_refl _)) (fun x y => Holds.le)
        fun x y hx hy hxy => ?_⟩
    · exact Holds.congr hxy (hagrees.mono hx (by omega))
    · exact Holds.congr hxy (hagrees.mono (by omega) hy)
  | .group _ _ _, _, _, h, hagrees => by
    rw [Holds] at h ⊢
    obtain ⟨last, hopen, hbody, hclose, rfl⟩ := h
    have hlast := hbody.le
    refine ⟨last, ?_, Holds.congr hbody (hagrees.mono (by omega) (by omega)), ?_, rfl⟩
    · rw [hagrees.instrs _ (by omega) (by omega)]
      exact hopen
    · rw [hagrees.instrs _ (by omega) (by omega)]
      exact hclose

theorem HoldsAll.congr : ∀ {ns : List Node} {a b : Nat}, code.HoldsAll ns a b →
    code.Agrees code' a b → code'.HoldsAll ns a b
  | [], _, _, h, _ => by
    rw [HoldsAll] at h ⊢
    exact h
  | _ :: _, _, _, h, hagrees => by
    rw [HoldsAll] at h ⊢
    obtain ⟨m, hm, h⟩ := h
    exact ⟨m, Holds.congr hm (hagrees.mono (Nat.le_refl _) h.le),
      HoldsAll.congr h (hagrees.mono hm.le (Nat.le_refl _))⟩

theorem HoldsBranches.congr : ∀ {ns : List Node} {a b : Nat}, code.HoldsBranches ns a b →
    code.Agrees code' a b → code'.HoldsBranches ns a b
  | [], _, _, h, _ => by
    rw [HoldsBranches] at h ⊢
    exact h
  | [_], _, _, h, hagrees => by
    rw [HoldsBranches] at h ⊢
    exact Holds.congr h hagrees
  | _ :: _ :: _, _, _, h, hagrees => by
    rw [HoldsBranches] at h ⊢
    obtain ⟨last, hsplit, hm, hjump, h⟩ := h
    have hlast := hm.le
    have hexit := h.le
    refine ⟨last, ?_, Holds.congr hm (hagrees.mono (by omega) (by omega)), ?_,
      HoldsBranches.congr h (hagrees.mono (by omega) (Nat.le_refl _))⟩
    · rw [hagrees.instrs _ (by omega) (by omega)]
      exact hsplit
    · rw [hagrees.instrs _ (by omega) (by omega)]
      exact hjump

end

end Code

end LinearRegex
