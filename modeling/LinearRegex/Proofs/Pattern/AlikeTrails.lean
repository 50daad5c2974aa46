import LinearRegex.Proofs.Pattern.CongruentTrails
import LinearRegex.Proofs.Pattern.Folded
import LinearRegex.Proofs.Text.Slice

/-!
# The same pattern in texts with the same folds

Two texts of which each two characters in the same place have the same fold differ in how many bytes
lie before a place, but not in how many characters do. A pattern that goes by folds is tried in both
of them in the same ways: the trails come to the same places, counted in characters, with the same
places recorded and the same choices made.

Main statement: `Pattern.firstTrail_alike`.
-/

namespace LinearRegex

open CaseFold

/-! ## Places in both texts -/

/-- The number of characters before a byte offset. -/
def Haystack.charsBefore (hay : Haystack) (offset : Nat) : Nat :=
  (Utf8.takeBytes offset hay.chars).length

/-- What slots record, counted in characters. -/
def Slots.inChars (hay : Haystack) (slots : Slots) : Array (Option Nat) :=
  slots.map (Option.map hay.charsBefore)

/-- Places in two texts with the same folds, before and behind which there are the same folds. -/
structure Cursor.Alike (hay hay' : Haystack) (cur cur' : Cursor) : Prop where
  chars : hay.chars.map fold = hay'.chars.map fold
  mem : cur ∈ hay.cursors
  mem' : cur' ∈ hay'.cursors
  before : cur.before.map fold = cur'.before.map fold
  rest : cur.rest.map fold = cur'.rest.map fold

namespace Cursor.Alike

variable {hay hay' : Haystack} {cur cur' : Cursor}

theorem start (h : hay.chars.map fold = hay'.chars.map fold) :
    Alike hay hay' hay.start hay'.start :=
  ⟨h, hay.start_mem_cursors, hay'.start_mem_cursors, rfl, h⟩

theorem length_rest (h : Alike hay hay' cur cur') : cur.rest.length = cur'.rest.length := by
  simpa using congrArg List.length h.rest

theorem after (h : Alike hay hay' cur cur') : cur.after.map fold = cur'.after.map fold := by
  unfold Cursor.after
  rw [← List.head?_map, ← List.head?_map, h.rest]

/-- Behind places that are alike both texts end, or characters with the same fold follow. -/
theorem rest_cases (h : Alike hay hay' cur cur') :
    (cur.rest = [] ∧ cur'.rest = []) ∨
      ∃ c cs c' cs', cur.rest = c :: cs ∧ cur'.rest = c' :: cs' ∧ fold c = fold c' ∧
        cs.map fold = cs'.map fold := by
  have hrest := h.rest
  cases hcur : cur.rest with
  | nil =>
    rw [hcur, List.map_nil] at hrest
    exact Or.inl ⟨rfl, List.map_eq_nil_iff.mp hrest.symm⟩
  | cons c cs =>
    cases hcur' : cur'.rest with
    | nil => simp [hcur, hcur'] at hrest
    | cons c' cs' =>
      rw [hcur, hcur', List.map_cons, List.map_cons] at hrest
      obtain ⟨hc, hcs⟩ := List.cons.inj hrest
      exact Or.inr ⟨c, cs, c', cs', rfl, rfl, hc, hcs⟩

theorem next (h : Alike hay hay' cur cur') : Alike hay hay' cur.next cur'.next := by
  have hmem := Haystack.next_mem_cursors h.mem
  have hmem' := Haystack.next_mem_cursors h.mem'
  rcases h.rest_cases with ⟨hnil, hnil'⟩ | ⟨c, cs, c', cs', hcons, hcons', hc, hcs⟩
  · unfold Cursor.next at hmem hmem' ⊢
    rw [hnil] at hmem ⊢
    rw [hnil'] at hmem' ⊢
    exact h
  · unfold Cursor.next at hmem hmem' ⊢
    rw [hcons] at hmem ⊢
    rw [hcons'] at hmem' ⊢
    exact ⟨h.chars, hmem, hmem', congrArg some hc, hcs⟩

/-- Behind places that are alike all places are. -/
theorem forall₂_onward (h : Alike hay hay' cur cur') :
    List.Forall₂ (Alike hay hay') cur.onward cur'.onward := by
  induction cur using Cursor.onward_induction generalizing cur' with
  | last cur hnil =>
    rcases h.rest_cases with ⟨-, hnil'⟩ | ⟨c, cs, -, -, hcons, -⟩
    · rw [Cursor.onward_of_rest_nil hnil, Cursor.onward_of_rest_nil hnil']
      exact .cons h .nil
    · simp [hnil] at hcons
  | step cur c cs hcons ih =>
    rcases h.rest_cases with ⟨hnil, -⟩ | ⟨_, _, c', cs', -, hcons', -, -⟩
    · simp [hnil] at hcons
    · rw [Cursor.onward_of_rest_cons hcons, Cursor.onward_of_rest_cons hcons']
      exact .cons h (ih h.next)

/-- The number of characters before places that are alike is the same. -/
theorem charsBefore_eq (h : Alike hay hay' cur cur') :
    hay.charsBefore cur.offset = hay'.charsBefore cur'.offset := by
  have hlength : ∀ {hay : Haystack} {cur : Cursor}, cur ∈ hay.cursors →
      hay.charsBefore cur.offset + cur.rest.length = hay.chars.length := by
    intro hay cur hcur
    obtain ⟨passed, hpassed, hoffset⟩ := Haystack.exists_passed hcur
    unfold Haystack.charsBefore
    rw [hpassed, hoffset, Utf8.length_encode, Utf8.takeBytes_append, List.length_append]
  have hleft := hlength h.mem
  have hright := hlength h.mem'
  have hrest := h.length_rest
  have hchars : hay.chars.length = hay'.chars.length := by
    simpa using congrArg List.length h.chars
  omega

end Cursor.Alike

/-- Characters with the same fold are both the newline, or neither is. -/
theorem CaseFold.beq_newline_of_map {o o' : Option Char} (h : o.map fold = o'.map fold) :
    (o == some '\n') = (o' == some '\n') := by
  have hfold : ∀ o : Option Char, o = some '\n' ↔ o.map fold = some '\n' := by
    intro o
    cases o with
    | none => simp
    | some c => simp [fold_eq_newline_iff]
  rw [Bool.eq_iff_iff, beq_iff_eq, beq_iff_eq, hfold o, hfold o', h]

/-- A condition that does not ask for words is met at both of two places that are alike. -/
theorem Assertion.holds_alike {a : Assertion} {hay hay' : Haystack} {cur cur' : Cursor}
    (ha : ∀ negated unicode, a ≠ .wordBoundary negated unicode)
    (h : cur.Alike hay hay' cur') : a.holds cur = a.holds cur' := by
  have hstart : cur.atStart = cur'.atStart := by
    unfold Cursor.atStart
    rw [← Option.isNone_map (f := fold), h.before, Option.isNone_map]
  have hend : cur.atEnd = cur'.atEnd := by
    unfold Cursor.atEnd
    rw [← List.isEmpty_map (f := fold), h.rest, List.isEmpty_map]
  cases a with
  | textStart => exact hstart
  | textEnd => exact hend
  | lineStart => simp only [holds, hstart, beq_newline_of_map h.before]
  | lineEnd => simp only [holds, hend, beq_newline_of_map h.after]
  | wordBoundary negated unicode => exact absurd rfl (ha negated unicode)

/-! ## Trails in both texts -/

/-- Trails in two texts that have come to places that are alike, have recorded places that are
alike, and have made the same choices. -/
structure Trail.Alike (hay hay' : Haystack) (t t' : Trail) : Prop where
  cur : Cursor.Alike hay hay' t.cur t'.cur
  slots : Slots.inChars hay t.slots = Slots.inChars hay' t'.slots
  made : t.made = t'.made

namespace Trail

variable {hay hay' : Haystack} {t t' : Trail}

theorem Alike.record (h : Alike hay hay' t t') (slot : Nat) :
    Alike hay hay' (t.record slot) (t'.record slot) := by
  refine ⟨h.cur, ?_, h.made⟩
  have hslots := h.slots
  unfold Slots.inChars at hslots
  unfold Trail.record Way.record Slots.inChars
  rw [Array.map_setIfInBounds, Array.map_setIfInBounds, Option.map_some, Option.map_some,
    h.cur.charsBefore_eq, hslots]

theorem congruence_alike (hay hay' : Haystack) : Congruence (Alike hay hay') where
  made h := h.made
  length_rest h := h.cur.length_rest
  mark h choice := ⟨h.cur, h.slots, congrArg (choice :: ·) h.made⟩
  record := Alike.record

theorem congruent_take {accepts : Char → Bool} (h : Invariant accepts) :
    Congruent (Alike hay hay') (Trail.take accepts) := by
  intro t t' ht
  have hafter : t.cur.after.any accepts = t'.cur.after.any accepts := by
    unfold Cursor.after
    rcases ht.cur.rest_cases with ⟨hnil, hnil'⟩ | ⟨c, cs, c', cs', hcons, hcons', hc, -⟩
    · rw [hnil, hnil']
    · rw [hcons, hcons']
      exact h c c' hc
  unfold Trail.take Way.take
  rw [hafter]
  split
  · exact .cons ⟨ht.cur.next, ht.slots, rfl⟩ .nil
  · exact .nil

end Trail

/-! ## Pieces in both texts -/

namespace Node

variable {hay hay' : Haystack} {n m : Node}

theorem FoldInvariant.of_part (h : n.FoldInvariant) (hm : n.Part m) : m.FoldInvariant := by
  induction hm with
  | root => exact h
  | @child k m _ hm ih =>
    cases k with
    | cat nodes => exact allFoldInvariant_iff.mp ih m hm
    | alt branches => exact allFoldInvariant_iff.mp ih m hm
    | loop body q => exact List.mem_singleton.mp hm ▸ ih
    | group body index name => exact List.mem_singleton.mp hm ▸ ih
    | _ => simp [children] at hm

/-- **A piece that goes by folds is tried in the same ways.** -/
theorem FoldInvariant.leavesCongruent (h : n.FoldInvariant) :
    n.LeavesCongruent (Trail.Alike hay hay') := by
  intro m hm hleaf first t t' ht
  have hfold := h.of_part hm
  cases m with
  | char c ignoreCase =>
    rw [trails, trails]
    exact Trail.congruent_take hfold t t' ht
  | any =>
    rw [trails, trails]
    exact Trail.congruent_take (fun _ _ _ => rfl) t t' ht
  | anyButNewline =>
    rw [trails, trails]
    exact Trail.congruent_take invariant_not_newline t t' ht
  | bracket b =>
    rw [trails, trails]
    exact Trail.congruent_take hfold t t' ht
  | assertion a =>
    rw [trails, trails, Assertion.holds_alike hfold ht.cur]
    split
    · exact .cons ht .nil
    · exact .nil
  | _ => exact hleaf.elim

end Node

/-- **The first trails are alike.** From places that are alike both texts are matched, or neither
is, with the same places recorded. -/
theorem Pattern.firstTrail_alike {pattern : Pattern} {hay hay' : Haystack} {cur cur' : Cursor}
    (hpattern : pattern.node.FoldInvariant) (h : cur.Alike hay hay' cur') (width : Nat) :
    (pattern.firstTrail width cur).map (Slots.inChars hay) =
      (pattern.firstTrail width cur').map (Slots.inChars hay') := by
  have hslots : Slots.inChars hay (.replicate width none) =
      Slots.inChars hay' (.replicate width none) := by
    unfold Slots.inChars
    rw [Array.map_replicate, Array.map_replicate, Option.map_none, Option.map_none]
  exact firstTrail_congruent (Trail.congruence_alike hay hay') hpattern.leavesCongruent
    (fun _ _ ht => ht.slots) ⟨h, hslots, rfl⟩

end LinearRegex
