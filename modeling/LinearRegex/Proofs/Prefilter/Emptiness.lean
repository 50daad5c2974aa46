import LinearRegex.Prefilter.Beginning
import LinearRegex.Proofs.Pattern.Denotation

/-!
# Empty matches and beginnings

The shape of a piece tells in two ways whether it takes characters: it may be sure to take none, and
it may be sure to take one. Where a piece may match the empty text, nothing is known of how its
matches begin: a row that may match the empty text has no literal character in it, and one branch
that may match it undoes what is known of the others.

Main statement: `Node.emptiness_sound`.
-/

namespace LinearRegex

namespace Beginning

variable {ns : List Node}

/-- Whether nothing is known of how matches begin. -/
def Unknown (b? : Option Beginning) : Prop := b? = none ∨ b? = some .anything

/-! ## Branches and rows -/

theorem join_anything (b : Beginning) : b.join .anything = .anything := by
  cases b <;> rfl

/-- Once nothing is known of a branch, nothing is known of all of them. -/
theorem ofBranches_anything (ns : List Node) : ofBranches (some .anything) ns = .anything := by
  induction ns with
  | nil => rfl
  | cons n ns ih =>
    rw [ofBranches]
    split
    · rfl
    · exact ih

theorem runBytes_of_canMatchEmpty {n : Node} (h : n.canMatchEmpty = true) : runBytes n = [] := by
  cases n with
  | char c ignoreCase => simp [Node.canMatchEmpty] at h
  | _ => rfl

/-- A row that may match the empty text has no literal characters. -/
theorem literalRun_of_allCanMatchEmpty (h : Node.allCanMatchEmpty ns = true) :
    literalRun ns = [] := by
  induction ns with
  | nil => rfl
  | cons n ns ih =>
    rw [Node.allCanMatchEmpty, Bool.and_eq_true] at h
    unfold literalRun
    rw [List.takeWhile_cons]
    split
    · rw [List.flatMap_cons, runBytes_of_canMatchEmpty h.1]
      exact ih h.2
    · rfl

/-! ## Pieces -/

mutual

/-- **Nothing is known of a piece that may match the empty text.** -/
theorem unknown_ofNode : ∀ {n : Node}, n.canMatchEmpty = true → Unknown (ofNode? n)
  | .empty, _ => Or.inr rfl
  | .assertion _, _ => Or.inl rfl
  | .cat nodes, h => by
    rw [Node.canMatchEmpty] at h
    rw [ofNode?, literalRun_of_allCanMatchEmpty h]
    exact unknown_ofFirst h
  | .alt branches, h => by
    rw [Node.canMatchEmpty] at h
    rw [ofNode?, ofBranches_of_anyCanMatchEmpty h]
    exact Or.inr rfl
  | .loop body q, h => by
    rw [Node.canMatchEmpty, Bool.or_eq_true, beq_iff_eq] at h
    rw [ofNode?]
    split
    · next hmin => exact unknown_ofNode (h.resolve_left (Nat.ne_of_gt hmin))
    · exact Or.inr rfl
  | .group body _ _, h => by
    rw [Node.canMatchEmpty] at h
    rw [ofNode?]
    exact unknown_ofNode h
  | .char _ _, h => by simp [Node.canMatchEmpty] at h
  | .any, h => by simp [Node.canMatchEmpty] at h
  | .anyButNewline, h => by simp [Node.canMatchEmpty] at h
  | .bracket _, h => by simp [Node.canMatchEmpty] at h

theorem unknown_ofFirst :
    ∀ {ns : List Node}, Node.allCanMatchEmpty ns = true → Unknown (ofFirst? ns)
  | [], _ => Or.inl rfl
  | _ :: _, h => by
    rw [Node.allCanMatchEmpty, Bool.and_eq_true] at h
    rw [ofFirst?]
    split
    · exact unknown_ofFirst h.2
    · exact unknown_ofNode h.1

theorem ofBranches_of_anyCanMatchEmpty : ∀ {ns : List Node} {known : Option Beginning},
    Node.anyCanMatchEmpty ns = true → ofBranches known ns = .anything
  | [], _, h => by simp [Node.anyCanMatchEmpty] at h
  | n :: ns, known, h => by
    rw [Node.anyCanMatchEmpty, Bool.or_eq_true] at h
    rw [ofBranches]
    split
    · rfl
    · next b hb =>
      rcases h with h | h
      · -- This branch may match the empty text, so that what is joined to it is lost.
        obtain rfl : b = .anything := by
          rcases unknown_ofNode h with hnone | hany
          · simp [hb] at hnone
          · exact Option.some.inj (hb.symm.trans hany)
        split
        · exact ofBranches_anything ns
        · next a =>
          rw [join_anything]
          exact ofBranches_anything ns
      · split
        · exact ofBranches_of_anyCanMatchEmpty h
        · exact ofBranches_of_anyCanMatchEmpty h

end

end Beginning

namespace Node

/-- A piece that cannot match the empty text ends behind the place where it begins. -/
theorem Matches.offset_lt {n : Node} {i j : Cursor} (h : n.Matches i j)
    (hn : n.canMatchEmpty = false) : i.offset < j.offset := by
  refine Cursor.offset_lt_of_mem_onward h.mem_onward ?_
  rintro rfl
  exact Nat.lt_irrefl _ (h.rest_lt hn)

/-- **What the shape of a piece tells of empty matches is so.** Wherever any piece matches in a
text, it stays where it is if it is told to take no character, and it ends at a later offset if it
is told not to match the empty text. And where it may match the empty text, it is not told how its
matches begin. No condition on the quantifiers is needed, as a loop whose bounds are the wrong way
round matches nowhere. -/
theorem emptiness_sound (n : Node) :
    (∀ i j : Cursor, n.Matches i j →
      (n.isZeroWidth = true → i = j) ∧ (n.canMatchEmpty = false → i.offset < j.offset)) ∧
    (n.canMatchEmpty = true →
      Beginning.ofNode? n = none ∨ Beginning.ofNode? n = some .anything) :=
  ⟨fun _ _ h => ⟨h.eq_of_isZeroWidth, h.offset_lt⟩, Beginning.unknown_ofNode⟩

/-- A row of an assertion and an empty group stays where it is. The loop behind it takes characters,
although its body has a branch that takes none. A literal branch is of no use beside an empty
one. -/
theorem emptiness_sound_branches : ∃ row loop choice : Node, ∃ i j : Cursor,
    row = .cat [.assertion .textStart, .group .empty 1 none] ∧
    loop = .loop (.cat [row, .alt [.empty, .any], .char 'b' false]) ⟨1, some 2, true⟩ ∧
    choice = .alt [.char 'a' false, .cat [row, .loop .any ⟨0, none, false⟩]] ∧
    i = ⟨0, none, ['a', 'b']⟩ ∧ j = ⟨2, some 'b', []⟩ ∧
    row.Matches i i ∧ row.isZeroWidth = true ∧
    loop.Matches i j ∧ loop.canMatchEmpty = false ∧ i.offset < j.offset ∧
    choice.canMatchEmpty = true ∧
    (Beginning.ofNode? choice = none ∨ Beginning.ofNode? choice = some .anything) := by
  let row : Node := .cat [.assertion .textStart, .group .empty 1 none]
  let loop : Node := .loop (.cat [row, .alt [.empty, .any], .char 'b' false]) ⟨1, some 2, true⟩
  let choice : Node := .alt [.char 'a' false, .cat [row, .loop .any ⟨0, none, false⟩]]
  let i : Cursor := ⟨0, none, ['a', 'b']⟩
  let j : Cursor := ⟨2, some 'b', []⟩
  have hrow : row.Matches i i := by
    simp [row, i, Matches, MatchesAll, Assertion.holds, Cursor.atStart]
  have hany : (alt [.empty, .any]).Matches i i.next := by
    simp [i, Matches, MatchesSome, Cursor.Takes, Cursor.after]
  have hliteral : (char 'b' false).Matches i.next j := by
    simp only [Matches]
    exact ⟨'b', rfl, rfl, by decide⟩
  have hloop : loop.Matches i j := by
    simp only [loop, Matches]
    refine ⟨1, Nat.le_refl 1, by simp, j, ?_, rfl⟩
    simp only [Matches, MatchesAll]
    exact ⟨i, hrow, i.next, hany, j, hliteral, rfl⟩
  obtain ⟨hmatches, -⟩ := emptiness_sound loop
  obtain ⟨-, hunknown⟩ := emptiness_sound choice
  have hcannot : loop.canMatchEmpty = false := by decide
  have hcan : choice.canMatchEmpty = true := by decide
  exact ⟨row, loop, choice, i, j, rfl, rfl, rfl, rfl, rfl, hrow, by decide, hloop, hcannot,
    (hmatches i j hloop).2 hcannot, hcan, hunknown hcan⟩

end Node

end LinearRegex
