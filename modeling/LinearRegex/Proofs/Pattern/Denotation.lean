import LinearRegex.Pattern.Node.Width
import LinearRegex.Proofs.Text.Boundary

/-!
# What a pattern denotes

Each piece of a pattern denotes a relation between places of a text: where it can begin and where it
can then end. Nothing is said of which way is preferred.

Main statements: matches only go onward (`Node.Matches.mem_onward`), a piece of no width stays where
it is (`Node.Matches.eq_of_isZeroWidth`), and a piece that cannot match the empty text takes a
character (`Node.Matches.rest_lt`).
-/

namespace LinearRegex

/-- A relation composed with itself a number of times. -/
def Iterate {α : Type} (R : α → α → Prop) : Nat → α → α → Prop
  | 0, a, b => a = b
  | n + 1, a, b => ∃ m, R a m ∧ Iterate R n m b

/-- One character that passes a test lies between two places. -/
def Cursor.Takes (accepts : Char → Bool) (i j : Cursor) : Prop :=
  ∃ c, i.after = some c ∧ accepts c = true ∧ j = i.next

namespace Node

mutual

/-- Whether a piece can match the text between two places. -/
def Matches : Node → Cursor → Cursor → Prop
  | .empty, i, j => i = j
  | .char c ignoreCase, i, j =>
    i.Takes (fun d => if ignoreCase then CaseFold.fold d == c else d == c) j
  | .any, i, j => i.Takes (fun _ => true) j
  | .anyButNewline, i, j => i.Takes (fun d => d != '\n') j
  | .bracket b, i, j => i.Takes b.accepts j
  | .assertion a, i, j => a.holds i = true ∧ i = j
  | .cat nodes, i, j => MatchesAll nodes i j
  | .alt branches, i, j => MatchesSome branches i j
  | .loop body q, i, j =>
    ∃ n, q.min ≤ n ∧ (∀ max, q.max = some max → n ≤ max) ∧ Iterate (Matches body) n i j
  | .group body _ _, i, j => Matches body i j

/-- Whether pieces can match the text between two places one after the other. -/
def MatchesAll : List Node → Cursor → Cursor → Prop
  | [], i, j => i = j
  | n :: ns, i, j => ∃ m, Matches n i m ∧ MatchesAll ns m j

/-- Whether one of several branches can match the text between two places. -/
def MatchesSome : List Node → Cursor → Cursor → Prop
  | [], _, _ => False
  | n :: ns, i, j => Matches n i j ∨ MatchesSome ns i j

end

end Node

/-! ## Iterated relations -/

namespace Iterate

variable {α : Type} {R : α → α → Prop} {m n : Nat} {a b c : α}

theorem trans (h : Iterate R m a b) (h' : Iterate R n b c) : Iterate R (m + n) a c := by
  induction m generalizing a with
  | zero =>
    obtain rfl : a = b := h
    rwa [Nat.zero_add]
  | succ m ih =>
    obtain ⟨d, hd, h⟩ := h
    rw [Nat.add_right_comm]
    exact ⟨d, hd, ih h⟩

/-- The iterations of a sum are the iterations of one number and then of the other. -/
theorem split (h : Iterate R (m + n) a c) : ∃ b, Iterate R m a b ∧ Iterate R n b c := by
  induction m generalizing a with
  | zero =>
    rw [Nat.zero_add] at h
    exact ⟨a, rfl, h⟩
  | succ m ih =>
    rw [Nat.add_right_comm] at h
    obtain ⟨d, hd, h⟩ := h
    obtain ⟨b, hb, hc⟩ := ih h
    exact ⟨b, ⟨d, hd, hb⟩, hc⟩

/-- What is kept by one iteration is kept by all. -/
theorem preserves {P : α → Prop} (h : Iterate R n a b) (ha : P a)
    (step : ∀ x y, P x → R x y → P y) : P b := by
  induction n generalizing a with
  | zero =>
    obtain rfl : a = b := h
    exact ha
  | succ n ih =>
    obtain ⟨d, hd, h⟩ := h
    exact ih h (step a d ha hd)

end Iterate

/-! ## Matches go onward -/

theorem Cursor.Takes.mem_onward {accepts : Char → Bool} {i j : Cursor} (h : i.Takes accepts j) :
    j ∈ i.onward := by
  obtain ⟨c, -, -, rfl⟩ := h
  exact i.next_mem_onward

theorem Cursor.Takes.rest_lt {accepts : Char → Bool} {i j : Cursor} (h : i.Takes accepts j) :
    j.rest.length < i.rest.length := by
  obtain ⟨c, hc, -, rfl⟩ := h
  exact Cursor.rest_next_lt hc

namespace Node

mutual

theorem Matches.mem_onward : ∀ {n : Node} {i j : Cursor}, n.Matches i j → j ∈ i.onward
  | .empty, i, _, h => by
    rw [Matches] at h
    exact h ▸ i.mem_onward_self
  | .char _ _, _, _, h => by
    rw [Matches] at h
    exact h.mem_onward
  | .any, _, _, h => by
    rw [Matches] at h
    exact h.mem_onward
  | .anyButNewline, _, _, h => by
    rw [Matches] at h
    exact h.mem_onward
  | .bracket _, _, _, h => by
    rw [Matches] at h
    exact h.mem_onward
  | .assertion _, i, _, h => by
    rw [Matches] at h
    exact h.2 ▸ i.mem_onward_self
  | .cat nodes, _, _, h => by
    rw [Matches] at h
    exact MatchesAll.mem_onward h
  | .alt branches, _, _, h => by
    rw [Matches] at h
    exact MatchesSome.mem_onward h
  | .loop body q, i, j, h => by
    rw [Matches] at h
    obtain ⟨n, -, -, h⟩ := h
    exact h.preserves (P := (· ∈ i.onward)) i.mem_onward_self
      fun x y hx hy => Cursor.mem_onward_trans hx (Matches.mem_onward hy)
  | .group _ _ _, _, _, h => by
    rw [Matches] at h
    exact Matches.mem_onward h

theorem MatchesAll.mem_onward : ∀ {ns : List Node} {i j : Cursor}, MatchesAll ns i j → j ∈ i.onward
  | [], i, _, h => by
    rw [MatchesAll] at h
    exact h ▸ i.mem_onward_self
  | _ :: _, _, _, h => by
    rw [MatchesAll] at h
    obtain ⟨m, hm, h⟩ := h
    exact Cursor.mem_onward_trans (Matches.mem_onward hm) (MatchesAll.mem_onward h)

theorem MatchesSome.mem_onward :
    ∀ {ns : List Node} {i j : Cursor}, MatchesSome ns i j → j ∈ i.onward
  | [], _, _, h => by
    rw [MatchesSome] at h
    exact h.elim
  | _ :: _, _, _, h => by
    rw [MatchesSome] at h
    rcases h with h | h
    · exact Matches.mem_onward h
    · exact MatchesSome.mem_onward h

end

/-! ## The width of matches -/

mutual

/-- A piece of no width stays where it is. -/
theorem Matches.eq_of_isZeroWidth :
    ∀ {n : Node} {i j : Cursor}, n.Matches i j → n.isZeroWidth = true → i = j
  | .empty, _, _, h, _ => by rwa [Matches] at h
  | .assertion _, _, _, h, _ => by
    rw [Matches] at h
    exact h.2
  | .cat nodes, _, _, h, hz => by
    rw [Matches] at h
    rw [isZeroWidth] at hz
    exact MatchesAll.eq_of_allZeroWidth h hz
  | .group _ _ _, _, _, h, hz => by
    rw [Matches] at h
    rw [isZeroWidth] at hz
    exact Matches.eq_of_isZeroWidth h hz
  | .char _ _, _, _, _, hz => by simp [isZeroWidth] at hz
  | .any, _, _, _, hz => by simp [isZeroWidth] at hz
  | .anyButNewline, _, _, _, hz => by simp [isZeroWidth] at hz
  | .bracket _, _, _, _, hz => by simp [isZeroWidth] at hz
  | .alt _, _, _, _, hz => by simp [isZeroWidth] at hz
  | .loop _ _, _, _, _, hz => by simp [isZeroWidth] at hz

theorem MatchesAll.eq_of_allZeroWidth :
    ∀ {ns : List Node} {i j : Cursor}, MatchesAll ns i j → allZeroWidth ns = true → i = j
  | [], _, _, h, _ => by rwa [MatchesAll] at h
  | _ :: _, _, _, h, hz => by
    rw [MatchesAll] at h
    rw [allZeroWidth, Bool.and_eq_true] at hz
    obtain ⟨m, hm, h⟩ := h
    exact (Matches.eq_of_isZeroWidth hm hz.1).trans (MatchesAll.eq_of_allZeroWidth h hz.2)

end

theorem Matches.rest_le {n : Node} {i j : Cursor} (h : n.Matches i j) :
    j.rest.length ≤ i.rest.length :=
  Cursor.rest_length_le_of_mem_onward h.mem_onward

mutual

/-- A piece that cannot match the empty text takes a character. -/
theorem Matches.rest_lt : ∀ {n : Node} {i j : Cursor}, n.Matches i j → n.canMatchEmpty = false →
    j.rest.length < i.rest.length
  | .empty, _, _, _, hc => by simp [canMatchEmpty] at hc
  | .assertion _, _, _, _, hc => by simp [canMatchEmpty] at hc
  | .char _ _, _, _, h, _ => by
    rw [Matches] at h
    exact h.rest_lt
  | .any, _, _, h, _ => by
    rw [Matches] at h
    exact h.rest_lt
  | .anyButNewline, _, _, h, _ => by
    rw [Matches] at h
    exact h.rest_lt
  | .bracket _, _, _, h, _ => by
    rw [Matches] at h
    exact h.rest_lt
  | .cat _, _, _, h, hc => by
    rw [Matches] at h
    rw [canMatchEmpty] at hc
    exact MatchesAll.rest_lt h hc
  | .alt _, _, _, h, hc => by
    rw [Matches] at h
    rw [canMatchEmpty] at hc
    exact MatchesSome.rest_lt h hc
  | .loop body q, i, j, h, hc => by
    rw [Matches] at h
    rw [canMatchEmpty, Bool.or_eq_false_iff, beq_eq_false_iff_ne] at hc
    obtain ⟨n, hmin, -, h⟩ := h
    cases n with
    | zero => omega
    | succ n =>
      obtain ⟨m, hm, h⟩ := h
      -- The first iteration takes a character, and the others give none back.
      have hlt := Matches.rest_lt hm hc.2
      refine h.preserves (P := fun x => x.rest.length < i.rest.length) hlt ?_
      intro x y hx hy
      exact Nat.lt_of_le_of_lt hy.rest_le hx
  | .group _ _ _, _, _, h, hc => by
    rw [Matches] at h
    rw [canMatchEmpty] at hc
    exact Matches.rest_lt h hc

theorem MatchesAll.rest_lt : ∀ {ns : List Node} {i j : Cursor}, MatchesAll ns i j →
    allCanMatchEmpty ns = false → j.rest.length < i.rest.length
  | [], _, _, _, hc => by simp [allCanMatchEmpty] at hc
  | n :: ns, _, _, h, hc => by
    rw [MatchesAll] at h
    rw [allCanMatchEmpty, Bool.and_eq_false_iff] at hc
    obtain ⟨m, hm, h⟩ := h
    rcases hc with hc | hc
    · have := Cursor.rest_length_le_of_mem_onward h.mem_onward
      exact Nat.lt_of_le_of_lt this (Matches.rest_lt hm hc)
    · exact Nat.lt_of_lt_of_le (MatchesAll.rest_lt h hc) hm.rest_le

theorem MatchesSome.rest_lt : ∀ {ns : List Node} {i j : Cursor}, MatchesSome ns i j →
    anyCanMatchEmpty ns = false → j.rest.length < i.rest.length
  | [], _, _, h, _ => by
    rw [MatchesSome] at h
    exact h.elim
  | _ :: _, _, _, h, hc => by
    rw [MatchesSome] at h
    rw [anyCanMatchEmpty, Bool.or_eq_false_iff] at hc
    rcases h with h | h
    · exact Matches.rest_lt h hc.1
    · exact MatchesSome.rest_lt h hc.2

end

end Node

end LinearRegex
