import LinearRegex.Proofs.Pattern.CongruentTrails
import LinearRegex.Proofs.Text.Boundary

/-!
# The same text behind a place

Two places with the same text behind them differ in how many bytes come before them, and in the
character before them. Only conditions can tell the difference: a pattern that asks for none is
tried in the same ways from both, and records the same places, counted from each.

Main statement: `Pattern.firstTrail_laterBy`.
-/

namespace LinearRegex

/-- Places with the same text behind them, the first of which has `n` more bytes before it. -/
structure Cursor.LaterBy (n : Nat) (cur cur' : Cursor) : Prop where
  offset : cur.offset = n + cur'.offset
  rest : cur.rest = cur'.rest

/-- Slots that record places `n` bytes later. -/
def Slots.laterBy (n : Nat) (slots : Slots) : Slots := slots.map (Option.map (n + ·))

/-- Trails that have come to places with the same text behind them, have recorded places that lie
`n` bytes apart, and have made the same choices. -/
structure Trail.LaterBy (n : Nat) (t t' : Trail) : Prop where
  cur : t.cur.LaterBy n t'.cur
  slots : t.slots = t'.slots.laterBy n
  made : t.made = t'.made

variable {n : Nat}

theorem Slots.resize_laterBy (slots : Slots) (size : Nat) :
    (slots.laterBy n).resize size = (slots.resize size).laterBy n := by
  unfold laterBy resize
  rw [Array.map_append, Array.map_replicate, Option.map_none, Array.size_map, Array.take_eq_extract,
    Array.take_eq_extract, Array.map_extract]

namespace Cursor.LaterBy

variable {cur cur' : Cursor}

theorem next (h : cur.LaterBy n cur') : cur.next.LaterBy n cur'.next := by
  unfold Cursor.next
  rw [h.rest]
  cases cur'.rest with
  | nil => exact h
  | cons c cs => exact ⟨by simp only [push, h.offset, Nat.add_assoc], rfl⟩

theorem forall₂_onward (h : cur.LaterBy n cur') :
    List.Forall₂ (LaterBy n) cur.onward cur'.onward := by
  induction cur using Cursor.onward_induction generalizing cur' with
  | last cur hnil =>
    have hnil' : cur'.rest = [] := h.rest.symm.trans hnil
    rw [Cursor.onward_of_rest_nil hnil, Cursor.onward_of_rest_nil hnil']
    exact .cons h .nil
  | step cur c cs hcons ih =>
    have hcons' : cur'.rest = c :: cs := h.rest.symm.trans hcons
    rw [Cursor.onward_of_rest_cons hcons, Cursor.onward_of_rest_cons hcons']
    exact .cons h (ih h.next)

end Cursor.LaterBy

namespace Trail

theorem congruence_laterBy (n : Nat) : Congruence (LaterBy n) where
  made h := h.made
  length_rest h := congrArg List.length h.cur.rest
  mark h choice := ⟨h.cur, h.slots, congrArg (choice :: ·) h.made⟩
  record h slot := by
    refine ⟨h.cur, ?_, h.made⟩
    unfold Trail.record Way.record Slots.laterBy
    rw [Array.map_setIfInBounds, Option.map_some, ← h.cur.offset, h.slots, Slots.laterBy]

theorem congruent_take_laterBy (accepts : Char → Bool) :
    Congruent (LaterBy n) (Trail.take accepts) := by
  intro t t' ht
  unfold Trail.take Way.take Cursor.after
  rw [ht.cur.rest]
  split
  · exact .cons ⟨ht.cur.next, ht.slots, rfl⟩ .nil
  · exact .nil

end Trail

/-- A piece without conditions cannot tell what comes before a place. -/
theorem Node.leavesCongruent_laterBy {m : Node} (h : ∀ a, ¬ m.Part (.assertion a)) :
    m.LeavesCongruent (Trail.LaterBy n) := by
  intro leaf hpart hleaf first
  rcases hleaf.trails_eq with ⟨a, rfl⟩ | ⟨accepts, heq⟩
  · exact absurd hpart (h a)
  · rw [show leaf.trails first = Trail.take accepts from funext (heq first)]
    exact Trail.congruent_take_laterBy accepts

/-- **The first trails record the same**, counted from each place. -/
theorem Pattern.firstTrail_laterBy {pattern : Pattern} {cur cur' : Cursor}
    (hpattern : ∀ a, ¬ pattern.node.Part (.assertion a)) (h : cur.LaterBy n cur') (width : Nat) :
    pattern.firstTrail width cur = (pattern.firstTrail width cur').map (Slots.laterBy n) := by
  have hslots : (.replicate width none : Slots) = Slots.laterBy n (.replicate width none) := by
    unfold Slots.laterBy
    rw [Array.map_replicate, Option.map_none]
  rw [← Option.map_id_apply (x := pattern.firstTrail width cur)]
  exact firstTrail_congruent (Trail.congruence_laterBy n) (Node.leavesCongruent_laterBy hpattern)
    (fun _ _ ht => ht.slots) ⟨h, hslots, rfl⟩

end LinearRegex
