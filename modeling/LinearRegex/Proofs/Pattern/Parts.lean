import LinearRegex.Proofs.Pattern.Written
import Mathlib.Data.List.Chain

/-!
# Parts and paths of a tree

The pieces inside of a tree, at any depth, and the paths that lead down to them. A path passes
through as many pieces as the tree is high at most.

Main statements: `Node.length_le_height` on paths, and `Node.Written.of_part`: all parts of what a
pattern is read to are as patterns are read to.
-/

namespace LinearRegex.Node

/-- The pieces right inside of a piece. -/
def children : Node → List Node
  | .cat nodes => nodes
  | .alt branches => branches
  | .loop body _ => [body]
  | .group body _ _ => [body]
  | _ => []

/-- The pieces of a tree, the whole tree among them. -/
inductive Part (root : Node) : Node → Prop
  | root : Part root root
  | child {n m : Node} (h : Part root n) (hm : m ∈ n.children) : Part root m

/-- Pieces that lead down from the root of a tree, each right inside of the one before. -/
def IsPath (root : Node) (path : List Node) : Prop :=
  path.head? = some root ∧ path.IsChain fun n m => m ∈ n.children

mutual

/-- The number of pieces on a longest path from the root down. -/
def height : Node → Nat
  | .cat nodes => heightAll nodes + 1
  | .alt branches => heightAll branches + 1
  | .loop body _ => height body + 1
  | .group body _ _ => height body + 1
  | .empty => 1
  | .char _ _ => 1
  | .any => 1
  | .anyButNewline => 1
  | .bracket _ => 1
  | .assertion _ => 1

/-- The height of the highest tree of a list. -/
def heightAll : List Node → Nat
  | [] => 0
  | n :: ns => max (height n) (heightAll ns)

end

/-! ## Heights -/

theorem heightAll_le_iff {ns : List Node} {k : Nat} :
    heightAll ns ≤ k ↔ ∀ n ∈ ns, n.height ≤ k := by
  induction ns with
  | nil => simp [heightAll]
  | cons n ns ih => rw [heightAll, Nat.max_le, ih, List.forall_mem_cons]

theorem height_pos (n : Node) : 0 < n.height := by
  cases n <;> simp [height]

theorem height_lt_of_mem_children {n m : Node} (h : m ∈ n.children) : m.height < n.height := by
  have hall : ∀ {ns : List Node}, m ∈ ns → m.height < heightAll ns + 1 := fun hm =>
    Nat.lt_succ_of_le (heightAll_le_iff.mp (Nat.le_refl _) m hm)
  cases n with
  | cat nodes =>
    rw [height]
    exact hall h
  | alt branches =>
    rw [height]
    exact hall h
  | loop body q =>
    obtain rfl := List.mem_singleton.mp h
    rw [height]
    exact Nat.lt_succ_self _
  | group body index name =>
    obtain rfl := List.mem_singleton.mp h
    rw [height]
    exact Nat.lt_succ_self _
  | _ => simp [children] at h

/-- **No path is longer than its tree is high.** -/
theorem length_le_height {root : Node} {path : List Node} (h : root.IsPath path) :
    path.length ≤ root.height := by
  obtain ⟨hhead, hchain⟩ := h
  induction path generalizing root with
  | nil => simp at hhead
  | cons n path ih =>
    obtain rfl := Option.some.inj hhead
    cases path with
    | nil => exact n.height_pos
    | cons m path =>
      obtain ⟨hm, hchain⟩ := List.isChain_cons_cons.mp hchain
      exact Nat.lt_of_le_of_lt (ih rfl hchain) (height_lt_of_mem_children hm)

theorem height_sequence_le {ns : List Node} {k : Nat} (h : ∀ n ∈ ns, n.height ≤ k) (hk : 0 < k) :
    (sequence ns).height ≤ k + 1 := by
  match ns, h with
  | [], _ =>
    rw [sequence, height]
    omega
  | [n], h =>
    rw [sequence]
    exact Nat.le_succ_of_le (h n List.mem_cons_self)
  | n :: m :: ns, h =>
    rw [sequence, height]
    · exact Nat.succ_le_succ (heightAll_le_iff.mpr h)
    all_goals simp

theorem height_choice_le {ns : List Node} {k : Nat} (h : ∀ n ∈ ns, n.height ≤ k) (hk : 0 < k) :
    (choice ns).height ≤ k + 1 := by
  match ns, h with
  | [], _ =>
    rw [choice, height]
    omega
  | [n], h =>
    rw [choice]
    exact Nat.le_succ_of_le (h n List.mem_cons_self)
  | n :: m :: ns, h =>
    rw [choice, height]
    · exact Nat.succ_le_succ (heightAll_le_iff.mpr h)
    all_goals simp

/-! ## Parts -/

theorem Part.of_child {n m x : Node} (h : m.Part x) (hm : m ∈ n.children) : n.Part x := by
  induction h with
  | root => exact .child .root hm
  | child _ hx ih => exact .child ih hx

/-- A part is the whole tree, or it is a part of what is right inside of it. -/
theorem Part.eq_or_of_child {n x : Node} (h : n.Part x) : x = n ∨ ∃ m ∈ n.children, m.Part x := by
  induction h with
  | root => exact Or.inl rfl
  | child _ hx ih =>
    rcases ih with rfl | ⟨m, hm, h⟩
    · exact Or.inr ⟨_, hx, .root⟩
    · exact Or.inr ⟨m, hm, .child h hx⟩

theorem Written.children {n m : Node} (h : n.Written) (hm : m ∈ n.children) : m.Written := by
  cases h with
  | cat _ h => exact h m hm
  | alt _ h => exact h m hm
  | loop h _ => exact List.mem_singleton.mp hm ▸ h
  | group _ h _ => exact List.mem_singleton.mp hm ▸ h
  | literal c flags =>
    obtain ⟨d, ignoreCase, hn⟩ := literal_eq_char c flags
    simp [hn, Node.children] at hm
  | _ => simp [Node.children, ofEscape] at hm

theorem Written.of_part {root n : Node} (h : root.Written) (hn : root.Part n) : n.Written := by
  induction hn with
  | root => exact h
  | child _ hm ih => exact ih.children hm

end LinearRegex.Node
