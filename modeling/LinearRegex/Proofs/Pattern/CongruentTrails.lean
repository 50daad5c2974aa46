import LinearRegex.Proofs.Pattern.Parts
import LinearRegex.Proofs.Pattern.Trails
import Mathlib.Data.List.Forall2

/-!
# Trails in two texts

Two trails, in one text or in two, that are related in some way: they have made the same choices and
have as many characters before them. If the pieces of a pattern that take a character or ask for a
condition lead from related trails to related ones, then so does the whole pattern, and the trails
through it are related one by one.

Main statements: `Node.congruent_trails`, and `Pattern.firstTrail_congruent`.
-/

namespace LinearRegex

namespace Trail

variable {R : Trail → Trail → Prop} {options more body : Trail → List Trail}
variable {bodies : Nat → Trail → List Trail}

/-- A relation of trails with the same choices and as much text before them, which stay related when
they make a choice or record their places. -/
structure Congruence (R : Trail → Trail → Prop) : Prop where
  made : ∀ {t t'}, R t t' → t.made = t'.made
  length_rest : ∀ {t t'}, R t t' → t.cur.rest.length = t'.cur.rest.length
  mark : ∀ {t t'}, R t t' → ∀ choice, R (t.mark choice) (t'.mark choice)
  record : ∀ {t t'}, R t t' → ∀ slot, R (t.record slot) (t'.record slot)

/-- Options of a trail that are related one by one where the trail is. -/
def Congruent (R : Trail → Trail → Prop) (options : Trail → List Trail) : Prop :=
  ∀ t t', R t t' → List.Forall₂ R (options t) (options t')

namespace Congruent

theorem pure : Congruent R fun t => [t] := fun _ _ ht => .cons ht .nil

theorem flatMap (h : Congruent R options) (h' : Congruent R more) :
    Congruent R fun t => (options t).flatMap more :=
  fun t t' ht => List.rel_flatMap (h t t' ht) h'

/-- A loop that goes through further iterations or to its exit. -/
theorem body_or_exit (h : Congruent R more) (greedy : Bool) :
    Congruent R fun t => if greedy then more t ++ [t] else t :: more t := by
  intro t t' ht
  cases greedy with
  | true => exact List.rel_append (h t t' ht) (.cons ht .nil)
  | false => exact .cons ht (h t t' ht)

theorem mandatory (h : ∀ k, Congruent R (bodies k)) (size n first : Nat) :
    Congruent R (Trail.mandatory size bodies n first) := by
  induction n generalizing first with
  | zero => exact pure
  | succ n ih => exact flatMap (h first) (ih (first + size))

variable (hR : Congruence R)
include hR

theorem choose (h : Congruent R options) (choice : Nat) :
    Congruent R (Trail.choose choice options) := by
  intro t t' ht
  unfold Trail.choose
  rw [hR.made ht]
  split
  · exact .nil
  · exact h _ _ (hR.mark ht choice)

theorem optional (h : ∀ k, Congruent R (bodies k)) (greedy : Bool) (size n first : Nat) :
    Congruent R (Trail.optional greedy size bodies n first) := by
  induction n generalizing first with
  | zero => exact pure
  | succ n ih => exact choose hR (body_or_exit (flatMap (h (first + 1)) (ih _)) greedy) first

theorem repeated (h : Congruent R body) (greedy : Bool) (choice n : Nat) :
    Congruent R (Trail.repeated greedy body choice n) := by
  induction n with
  | zero => exact fun t t' ht => .nil
  | succ n ih => exact choose hR (body_or_exit (flatMap h ih) greedy) choice

theorem unbounded (h : Congruent R body) (greedy : Bool) (choice : Nat) :
    Congruent R (Trail.unbounded greedy body choice) := by
  intro t t' ht
  unfold Trail.unbounded
  rw [hR.length_rest ht]
  exact repeated hR h greedy choice _ t t' ht

end Congruent

end Trail

namespace Node

/-- A piece that takes a character or asks for a condition. -/
def IsLeaf : Node → Prop
  | .char _ _ => True
  | .any => True
  | .anyButNewline => True
  | .bracket _ => True
  | .assertion _ => True
  | .empty => False
  | .cat _ => False
  | .alt _ => False
  | .loop _ _ => False
  | .group _ _ _ => False

/-- A piece that takes a character takes one that passes a test. -/
theorem IsLeaf.trails_eq {n : Node} (h : n.IsLeaf) :
    (∃ a, n = .assertion a) ∨ ∃ accepts, ∀ first t, n.trails first t = t.take accepts := by
  cases n with
  | assertion a => exact Or.inl ⟨a, rfl⟩
  | char c ignoreCase => exact Or.inr ⟨_, fun first t => by rw [trails]⟩
  | any => exact Or.inr ⟨_, fun first t => by rw [trails]⟩
  | anyButNewline => exact Or.inr ⟨_, fun first t => by rw [trails]⟩
  | bracket b => exact Or.inr ⟨_, fun first t => by rw [trails]⟩
  | _ => exact h.elim

variable {R : Trail → Trail → Prop} {n m : Node}

/-- All parts of a piece that take a character or ask for a condition lead from related trails to
related ones. -/
def LeavesCongruent (R : Trail → Trail → Prop) (n : Node) : Prop :=
  ∀ m, n.Part m → m.IsLeaf → ∀ first, Trail.Congruent R (m.trails first)

theorem LeavesCongruent.children (h : n.LeavesCongruent R) (hm : m ∈ n.children) :
    m.LeavesCongruent R :=
  fun leaf hleaf => h leaf (hleaf.of_child hm)

theorem LeavesCongruent.group (h : n.LeavesCongruent R) (index : Nat) (name : Option String) :
    (Node.group n index name).LeavesCongruent R := by
  intro m hm hleaf
  rcases hm.eq_or_of_child with rfl | ⟨k, hk, hm⟩
  · exact hleaf.elim
  · exact h m (List.mem_singleton.mp hk ▸ hm) hleaf

mutual

/-- **What leaves do, the whole piece does**: its trails from related trails are related one by
one. -/
theorem congruent_trails (hR : Trail.Congruence R) : ∀ {n : Node} (first : Nat),
    n.LeavesCongruent R → Trail.Congruent R (n.trails first)
  | .empty, _, _ => fun t t' ht => by
    rw [trails, trails]
    exact .cons ht .nil
  | .char _ _, first, h => h _ .root trivial first
  | .any, first, h => h _ .root trivial first
  | .anyButNewline, first, h => h _ .root trivial first
  | .bracket _, first, h => h _ .root trivial first
  | .assertion _, first, h => h _ .root trivial first
  | .cat _, first, h => fun t t' ht => by
    rw [trails, trails]
    exact congruent_trailsAll hR first (fun n hn => h.children hn) t t' ht
  | .alt _, first, h => fun t t' ht => by
    rw [trails, trails]
    exact congruent_trailsSome hR first (fun n hn => h.children hn) t t' ht
  | .loop body ⟨min, none, greedy⟩, first, h => fun t t' ht => by
    have hbody := fun k => congruent_trails hR (n := body) k (h.children (List.mem_singleton_self _))
    rw [trails, trails]
    exact (Trail.Congruent.mandatory hbody _ min first).flatMap
      (Trail.Congruent.unbounded hR (hbody _) greedy _) t t' ht
  | .loop body ⟨min, some max, greedy⟩, first, h => fun t t' ht => by
    have hbody := fun k => congruent_trails hR (n := body) k (h.children (List.mem_singleton_self _))
    rw [trails, trails]
    exact (Trail.Congruent.mandatory hbody _ min first).flatMap
      (Trail.Congruent.optional hR hbody greedy _ (max - min) _) t t' ht
  | .group body index _, first, h => fun t t' ht => by
    have hbody := congruent_trails hR (n := body) first (h.children (List.mem_singleton_self _))
      _ _ (hR.record ht (2 * index))
    rw [trails, trails]
    exact List.rel_map (R := R) (fun u u' hu => hR.record hu (2 * index + 1)) hbody

theorem congruent_trailsAll (hR : Trail.Congruence R) : ∀ {ns : List Node} (first : Nat),
    (∀ n ∈ ns, n.LeavesCongruent R) → Trail.Congruent R (trailsAll ns first)
  | [], _, _ => fun t t' ht => by
    rw [trailsAll, trailsAll]
    exact .cons ht .nil
  | _ :: _, first, h => fun t t' ht => by
    obtain ⟨hn, hns⟩ := List.forall_mem_cons.mp h
    rw [trailsAll, trailsAll]
    exact (congruent_trails hR first hn).flatMap (congruent_trailsAll hR _ hns) t t' ht

theorem congruent_trailsSome (hR : Trail.Congruence R) : ∀ {ns : List Node} (first : Nat),
    (∀ n ∈ ns, n.LeavesCongruent R) → Trail.Congruent R (trailsSome ns first)
  | [], _, _ => fun t t' ht => by
    rw [trailsSome, trailsSome]
    exact .nil
  | [_], first, h => fun t t' ht => by
    rw [trailsSome, trailsSome]
    exact congruent_trails hR first (h _ List.mem_cons_self) t t' ht
  | _ :: _ :: _, first, h => fun t t' ht => by
    obtain ⟨hn, hns⟩ := List.forall_mem_cons.mp h
    rw [trailsSome, trailsSome]
    refine Trail.Congruent.choose hR (fun u u' hu => ?_) first t t' ht
    exact List.rel_append (congruent_trails hR _ hn u u' hu) (congruent_trailsSome hR _ hns u u' hu)

end

end Node

/-- **The first trails are related**, if there are any, and so are the slots that they have
recorded, in whatever terms the relation puts them. -/
theorem Pattern.firstTrail_congruent {pattern : Pattern} {R : Trail → Trail → Prop} {γ : Type}
    {terms terms' : Slots → γ} (hR : Trail.Congruence R) (h : pattern.node.LeavesCongruent R)
    (hterms : ∀ t t', R t t' → terms t.slots = terms' t'.slots) {cur cur' : Cursor} {width : Nat}
    (hcur : R ⟨⟨cur, .replicate width none⟩, []⟩ ⟨⟨cur', .replicate width none⟩, []⟩) :
    (pattern.firstTrail width cur).map terms = (pattern.firstTrail width cur').map terms' := by
  have htrails := Node.congruent_trails hR 0 (h.group 0 none) _ _ hcur
  unfold firstTrail
  generalize (Node.group pattern.node 0 none).trails 0 ⟨⟨cur, .replicate width none⟩, []⟩ = ts
    at htrails ⊢
  generalize (Node.group pattern.node 0 none).trails 0 ⟨⟨cur', .replicate width none⟩, []⟩ = ts'
    at htrails ⊢
  cases htrails with
  | nil => rfl
  | cons ht _ => exact congrArg some (hterms _ _ ht)

end LinearRegex
