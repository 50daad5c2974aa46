import LinearRegex.Proofs.Pattern.Steps

/-!
# What a tree is put together of

A tree is put together of the pieces that tokens stand for, each under the flags in force where the
token stands. Rows, choices, loops and groups add nothing of their own. So what holds of these
pieces, and is passed on from parts to the whole, holds of the tree.

Main statements: `Reader.madeOf_step` for one lexeme, and `node_of_parse`.
-/

namespace LinearRegex

/-! ## Properties passed on from the parts -/

/-- A property of pieces that is passed on from the parts of a piece to the whole. -/
structure Node.Compositional (P : Node → Prop) : Prop where
  empty : P .empty
  cat : ∀ {nodes : List Node}, (∀ n ∈ nodes, P n) → P (.cat nodes)
  alt : ∀ {branches : List Node}, (∀ n ∈ branches, P n) → P (.alt branches)
  loop : ∀ {body : Node} (q : Quantifier), P body → P (.loop body q)
  group : ∀ {body : Node} (index : Nat) (name : Option String), P body → P (.group body index name)

namespace Node.Compositional

variable {P : Node → Prop}

theorem sequence (hP : Compositional P) {ns : List Node} (h : ∀ n ∈ ns, P n) :
    P (sequence ns) := by
  match ns, h with
  | [], _ => exact hP.empty
  | [n], h => exact h n List.mem_cons_self
  | _ :: _ :: _, h => exact hP.cat h

theorem choice (hP : Compositional P) {ns : List Node} (h : ∀ n ∈ ns, P n) : P (choice ns) := by
  match ns, h with
  | [], _ => exact hP.empty
  | [n], h => exact h n List.mem_cons_self
  | _ :: _ :: _, h => exact hP.alt h

end Node.Compositional

namespace Pattern

/-! ## The reader -/

/-- An alternation whose pieces all have a property. -/
structure Branches.MadeOf (P : Node → Prop) (b : Branches) : Prop where
  complete : ∀ n ∈ b.complete, P n
  pieces : ∀ n ∈ b.pieces, P n

namespace Branches.MadeOf

variable {P : Node → Prop} {b b' : Branches} {n : Node}

theorem init : MadeOf P {} := ⟨by simp, by simp⟩

theorem push (h : b.MadeOf P) (hn : P n) : (b.push n).MadeOf P :=
  ⟨h.complete, List.forall_mem_cons.mpr ⟨hn, h.pieces⟩⟩

theorem repeatLast (hP : Node.Compositional P) (h : b.MadeOf P) {q : Quantifier}
    (hb : b.repeatLast? q = some b') : b'.MadeOf P := by
  obtain ⟨-, n, ns, hpieces, rfl⟩ := repeatLast?_eq_some hb
  have hall := h.pieces
  rw [hpieces] at hall
  obtain ⟨hn, hns⟩ := List.forall_mem_cons.mp hall
  exact ⟨h.complete, List.forall_mem_cons.mpr ⟨hP.loop q hn, hns⟩⟩

/-- The branch that is being read becomes one of the complete ones. -/
theorem branch (hP : Node.Compositional P) (h : b.MadeOf P) :
    ∀ n ∈ Node.sequence b.pieces.reverse :: b.complete, P n :=
  List.forall_mem_cons.mpr ⟨hP.sequence fun n hn => h.pieces n (List.mem_reverse.mp hn), h.complete⟩

theorem bar (hP : Node.Compositional P) (h : b.MadeOf P) (o : Nat) : (b.bar o).MadeOf P :=
  ⟨h.branch hP, by simp [Branches.bar]⟩

theorem finish (hP : Node.Compositional P) (h : b.MadeOf P) (hn : b.finish = .ok n) : P n := by
  obtain ⟨-, rfl⟩ := finish_eq_ok hn
  exact hP.choice fun n hn => h.branch hP n (List.mem_reverse.mp hn)

end Branches.MadeOf

namespace Reader

variable {P : Node → Prop} {r r' : Reader} {lx : Lexeme} {lxs : List Lexeme}

/-- A state of the reader in which all that has been read has a property. -/
structure MadeOf (P : Node → Prop) (r : Reader) : Prop where
  branches : r.branches.MadeOf P
  groups : ∀ g ∈ r.groups, g.around.MadeOf P

theorem MadeOf.closing (hP : Node.Compositional P) (h : r.MadeOf P) {o : Nat}
    (hr : r.closing o = .ok r') : r'.MadeOf P := by
  obtain ⟨body, g, groups, hbody, hgroups, rfl⟩ := closing_eq_ok hr
  have hall := h.groups
  rw [hgroups] at hall
  obtain ⟨hg, hmore⟩ := List.forall_mem_cons.mp hall
  have hbody := h.branches.finish hP hbody
  refine ⟨hg.push ?_, hmore⟩
  unfold OpenGroup.piece
  split
  · exact hbody
  · exact hP.group _ _ hbody

theorem MadeOf.opening (h : r.MadeOf P) {o : Nat} {head : GroupHead}
    (hr : r.opening o head = .ok r') : r'.MadeOf P := by
  cases opened_of_opening hr with
  | changed _ hr =>
    subst hr
    exact ⟨⟨h.branches.complete, h.branches.pieces⟩, h.groups⟩
  | grouped _ hr =>
    subst hr
    exact ⟨.init, List.forall_mem_cons.mpr ⟨h.branches, h.groups⟩⟩
  | captured _ _ hr =>
    subst hr
    exact ⟨.init, List.forall_mem_cons.mpr ⟨h.branches, h.groups⟩⟩

/-- **A lexeme adds the piece that it stands for**, and nothing else. -/
theorem madeOf_step (hP : Node.Compositional P) (h : r.MadeOf P)
    (hpiece : ∀ token n, lx.token = .ok token → pieceOf? r.flags token = some n → P n)
    (hstep : r.step lx = .ok r') : r'.MadeOf P := by
  cases stepped_of_step hstep with
  | piece htoken hn hr =>
    subst hr
    exact ⟨h.branches.push (hpiece _ _ htoken hn), h.groups⟩
  | repeated _ hbranches hr =>
    subst hr
    exact ⟨h.branches.repeatLast hP hbranches, h.groups⟩
  | opened _ _ hr => exact h.opening hr
  | closed _ hr => exact h.closing hP hr
  | barred _ hr =>
    subst hr
    exact ⟨h.branches.bar hP _, h.groups⟩

/-- The tokens that are read, each with the flags in force where it stands. -/
def readings (r : Reader) : List Lexeme → List (Flags × Token)
  | [] => []
  | lx :: lxs =>
    match lx.token, r.step lx with
    | .ok token, .ok r' => (r.flags, token) :: readings r' lxs
    | _, _ => []

theorem madeOf_foldlM (hP : Node.Compositional P) (h : r.MadeOf P)
    (hpiece : ∀ flags token n, (flags, token) ∈ r.readings lxs →
      pieceOf? flags token = some n → P n)
    (hrun : lxs.foldlM step r = .ok r') : r'.MadeOf P := by
  induction lxs generalizing r with
  | nil =>
    obtain rfl := Except.ok.inj hrun
    exact h
  | cons lx lxs ih =>
    obtain ⟨r₁, h₁, hrun⟩ := exists_step_of_foldlM hrun
    cases htoken : lx.token with
    | error e => simp [step, htoken] at h₁
    | ok token =>
      have hreadings : r.readings (lx :: lxs) = (r.flags, token) :: r₁.readings lxs := by
        rw [readings, htoken, h₁]
      rw [hreadings] at hpiece
      refine ih (madeOf_step hP h (fun token' n htoken' => ?_) h₁) ?_ hrun
      · obtain rfl := Except.ok.inj (htoken.symm.trans htoken')
        exact hpiece r.flags token n List.mem_cons_self
      · exact fun flags token' n hmem => hpiece flags token' n (List.mem_cons_of_mem _ hmem)

end Reader

/-- The tokens of a pattern, each with the flags in force where it stands. -/
def readings (source : String) (flags : Flags) : List (Flags × Token) :=
  Reader.readings { flags } (Lexeme.all (.ofString source))

/-- **What holds of all pieces that tokens stand for holds of the tree**, if it is passed on. -/
theorem node_of_parse {P : Node → Prop} (hP : Node.Compositional P) {source : String}
    {flags : Flags} {pattern : Pattern} (h : parse source flags = .ok pattern)
    (hpiece : ∀ fl token n, (fl, token) ∈ readings source flags →
      pieceOf? fl token = some n → P n) :
    P pattern.node := by
  obtain ⟨r, hr, hnode, -⟩ := exists_reader_of_parse h
  exact (Reader.madeOf_foldlM hP ⟨.init, by simp⟩ hpiece hr).branches.finish hP hnode

end Pattern

end LinearRegex
