import LinearRegex.Engine.Search
import LinearRegex.Proofs.Pattern.Denotation
import LinearRegex.Proofs.Pattern.Written
import Mathlib.Data.List.Basic

/-!
# Backtracking

The ways in which a piece can be matched from a place, in the order in which a backtracking matcher
tries them: branches in order, a greedy loop's body before its exit, another one's after it. Each
way has its own slots, so what is recorded on one way is not seen by the next. The first way there
is decides.

Main statements: each way is a match (`Node.matches_of_mem_ways`), and the iterations of a loop
without a bound follow the plain rule as long as its body takes characters (`unbounded_eq`).
-/

namespace LinearRegex

/-- A place that has been come to, with the slots recorded on the way. -/
structure Way where
  cur : Cursor
  slots : Slots

namespace Way

/-- The way after its place has been recorded. -/
def record (w : Way) (slot : Nat) : Way :=
  { w with slots := w.slots.setIfInBounds slot (some w.cur.offset) }

/-- The way on over one character, if that passes a test. -/
def take (accepts : Char → Bool) (w : Way) : List Way :=
  if w.cur.after.any accepts then [{ w with cur := w.cur.next }] else []

/-- The ways through a number of iterations. -/
def mandatory (body : Way → List Way) : Nat → Way → List Way
  | 0, w => [w]
  | n + 1, w => (body w).flatMap (mandatory body n)

/-- The ways through at most a number of iterations: a greedy loop tries the body before the exit,
another one after it. -/
def optional (greedy : Bool) (body : Way → List Way) : Nat → Way → List Way
  | 0, w => [w]
  | n + 1, w =>
    let more := (body w).flatMap (optional greedy body n)
    if greedy then more ++ [w] else w :: more

/-- The ways through any number of iterations. A body that takes characters cannot run more often
than there are characters left. -/
def unbounded (greedy : Bool) (body : Way → List Way) (w : Way) : List Way :=
  optional greedy body w.cur.rest.length w

end Way

namespace Node

mutual

/-- The ways to match a piece, in the order in which they are tried. -/
def ways : Node → Way → List Way
  | .empty, w => [w]
  | .char c ignoreCase, w =>
    w.take fun d => if ignoreCase then CaseFold.fold d == c else d == c
  | .any, w => w.take fun _ => true
  | .anyButNewline, w => w.take fun d => d != '\n'
  | .bracket b, w => w.take b.accepts
  | .assertion a, w => if a.holds w.cur then [w] else []
  | .cat nodes, w => waysAll nodes w
  | .alt branches, w => waysSome branches w
  | .loop body ⟨min, none, greedy⟩, w =>
    (Way.mandatory (ways body) min w).flatMap (Way.unbounded greedy (ways body))
  | .loop body ⟨min, some max, greedy⟩, w =>
    (Way.mandatory (ways body) min w).flatMap (Way.optional greedy (ways body) (max - min))
  | .group body index _, w =>
    (ways body (w.record (2 * index))).map (·.record (2 * index + 1))

/-- The ways to match pieces one after the other. -/
def waysAll : List Node → Way → List Way
  | [], w => [w]
  | n :: ns, w => (ways n w).flatMap (waysAll ns)

/-- The ways to match one of several branches. -/
def waysSome : List Node → Way → List Way
  | [], _ => []
  | n :: ns, w => ways n w ++ waysSome ns w

end

mutual

/-- Whether the body of every loop without a bound takes characters, as far as shapes tell. -/
def loopsAdvance : Node → Bool
  | .cat nodes => allLoopsAdvance nodes
  | .alt branches => allLoopsAdvance branches
  | .loop body q => (q.max.isSome || !body.canMatchEmpty) && body.loopsAdvance
  | .group body _ _ => body.loopsAdvance
  | .empty => true
  | .char _ _ => true
  | .any => true
  | .anyButNewline => true
  | .bracket _ => true
  | .assertion _ => true

/-- Whether this is so in all pieces of a list. -/
def allLoopsAdvance : List Node → Bool
  | [] => true
  | n :: ns => n.loopsAdvance && allLoopsAdvance ns

end

end Node

/-- What a backtracking matcher makes of a pattern at a place: the slots of the first way there is,
with the whole match as group 0. -/
def Pattern.backtrack (pattern : Pattern) (width : Nat) (cur : Cursor) : Option Slots :=
  ((Node.group pattern.node 0 none).ways ⟨cur, .replicate width none⟩).head?.map Way.slots

/-! ## Ways are matches -/

namespace Way

variable {v w : Way} {body : Way → List Way} {R : Cursor → Cursor → Prop} {n : Nat} {greedy : Bool}

theorem takes_of_mem_take {accepts : Char → Bool} (h : v ∈ w.take accepts) :
    w.cur.Takes accepts v.cur := by
  unfold take at h
  split at h
  · next hany =>
    obtain ⟨c, hc, hacc⟩ := (Option.any_eq_true _ _).mp hany
    rw [List.mem_singleton.mp h]
    exact ⟨c, hc, hacc, rfl⟩
  · simp at h

theorem iterate_of_mem_mandatory (hbody : ∀ w, ∀ v ∈ body w, R w.cur v.cur)
    (h : v ∈ mandatory body n w) : Iterate R n w.cur v.cur := by
  induction n generalizing w with
  | zero =>
    rw [mandatory, List.mem_singleton] at h
    exact h ▸ rfl
  | succ n ih =>
    rw [mandatory, List.mem_flatMap] at h
    obtain ⟨u, hu, h⟩ := h
    exact ⟨u.cur, hbody w u hu, ih h⟩

theorem iterate_of_mem_optional (hbody : ∀ w, ∀ v ∈ body w, R w.cur v.cur)
    (h : v ∈ optional greedy body n w) : ∃ k, k ≤ n ∧ Iterate R k w.cur v.cur := by
  induction n generalizing w with
  | zero =>
    rw [optional, List.mem_singleton] at h
    exact ⟨0, Nat.le_refl 0, h ▸ rfl⟩
  | succ n ih =>
    have hcases : v = w ∨ ∃ u ∈ body w, v ∈ optional greedy body n u := by
      rw [optional] at h
      cases greedy with
      | true => simpa [or_comm] using h
      | false => simpa using h
    rcases hcases with rfl | ⟨u, hu, h⟩
    · exact ⟨0, Nat.zero_le _, rfl⟩
    · obtain ⟨k, hk, h⟩ := ih h
      exact ⟨k + 1, Nat.succ_le_succ hk, u.cur, hbody w u hu, h⟩

end Way

namespace Node

mutual

/-- **Each way to match a piece is a match of it.** -/
theorem matches_of_mem_ways : ∀ {n : Node} {v w : Way}, n.WellFormed → v ∈ n.ways w →
    n.Matches w.cur v.cur
  | .empty, v, w, _, h => by
    rw [ways, List.mem_singleton] at h
    rw [Matches, h]
  | .char _ _, _, _, _, h => by
    rw [ways] at h
    rw [Matches]
    exact Way.takes_of_mem_take h
  | .any, _, _, _, h => by
    rw [ways] at h
    rw [Matches]
    exact Way.takes_of_mem_take h
  | .anyButNewline, _, _, _, h => by
    rw [ways] at h
    rw [Matches]
    exact Way.takes_of_mem_take h
  | .bracket _, _, _, _, h => by
    rw [ways] at h
    rw [Matches]
    exact Way.takes_of_mem_take h
  | .assertion a, v, w, _, h => by
    rw [ways] at h
    rw [Matches]
    split at h
    · next hholds =>
      rw [List.mem_singleton.mp h]
      exact ⟨hholds, rfl⟩
    · simp at h
  | .cat nodes, _, _, hw, h => by
    rw [ways] at h
    rw [Matches]
    exact matchesAll_of_mem_waysAll hw h
  | .alt branches, _, _, hw, h => by
    rw [ways] at h
    rw [Matches]
    exact matchesSome_of_mem_waysSome hw.2 h
  | .loop body ⟨min, none, greedy⟩, v, w, hw, h => by
    rw [ways, List.mem_flatMap] at h
    obtain ⟨u, hu, h⟩ := h
    have hbody : ∀ w, ∀ v ∈ body.ways w, body.Matches w.cur v.cur :=
      fun w v hv => matches_of_mem_ways hw.2 hv
    obtain ⟨k, -, hk⟩ := Way.iterate_of_mem_optional hbody h
    rw [Matches]
    exact ⟨min + k, Nat.le_add_right _ _, by simp, (Way.iterate_of_mem_mandatory hbody hu).trans hk⟩
  | .loop body ⟨min, some max, greedy⟩, v, w, hw, h => by
    rw [ways, List.mem_flatMap] at h
    obtain ⟨u, hu, h⟩ := h
    have hbody : ∀ w, ∀ v ∈ body.ways w, body.Matches w.cur v.cur :=
      fun w v hv => matches_of_mem_ways hw.2 hv
    obtain ⟨k, hk, hiter⟩ := Way.iterate_of_mem_optional hbody h
    have hle : min ≤ max := hw.1 max rfl
    rw [Matches]
    refine ⟨min + k, Nat.le_add_right _ _, ?_, (Way.iterate_of_mem_mandatory hbody hu).trans hiter⟩
    rintro m ⟨⟩
    omega
  | .group body index _, v, w, hw, h => by
    rw [ways] at h
    rw [Matches]
    obtain ⟨u, hu, rfl⟩ := List.mem_map.mp h
    have hu := matches_of_mem_ways hw.2 hu
    exact hu

theorem matchesAll_of_mem_waysAll : ∀ {ns : List Node} {v w : Way}, AllWellFormed ns →
    v ∈ waysAll ns w → MatchesAll ns w.cur v.cur
  | [], _, _, _, h => by
    rw [waysAll, List.mem_singleton] at h
    rw [MatchesAll, h]
  | n :: ns, _, _, hw, h => by
    rw [waysAll, List.mem_flatMap] at h
    obtain ⟨u, hu, h⟩ := h
    rw [MatchesAll]
    exact ⟨u.cur, matches_of_mem_ways hw.1 hu, matchesAll_of_mem_waysAll hw.2 h⟩

theorem matchesSome_of_mem_waysSome : ∀ {ns : List Node} {v w : Way}, AllWellFormed ns →
    v ∈ waysSome ns w → MatchesSome ns w.cur v.cur
  | [], _, _, _, h => by
    rw [waysSome] at h
    simp at h
  | n :: ns, _, _, hw, h => by
    rw [waysSome, List.mem_append] at h
    rw [MatchesSome]
    rcases h with h | h
    · exact Or.inl (matches_of_mem_ways hw.1 h)
    · exact Or.inr (matchesSome_of_mem_waysSome hw.2 h)

end

end Node

/-! ## Loops without a bound -/

namespace Way

variable {body : Way → List Way} {greedy : Bool}

/-- Whether every way through a body takes a character. -/
def Advances (body : Way → List Way) : Prop :=
  ∀ w, ∀ v ∈ body w, v.cur.rest.length < w.cur.rest.length

theorem advances_ways {n : Node} (hw : n.WellFormed) (h : n.canMatchEmpty = false) :
    Advances n.ways :=
  fun _ _ hv => (Node.matches_of_mem_ways hw hv).rest_lt h

theorem body_eq_nil (h : Advances body) {w : Way} (hw : w.cur.rest.length = 0) : body w = [] := by
  rw [List.eq_nil_iff_forall_not_mem]
  intro v hv
  have := h w v hv
  omega

theorem optional_of_rest_nil (h : Advances body) {w : Way} (hw : w.cur.rest.length = 0) (n : Nat) :
    optional greedy body n w = [w] := by
  cases n with
  | zero => rfl
  | succ n =>
    rw [optional, body_eq_nil h hw]
    cases greedy <;> rfl

/-- More iterations than there are characters left make no difference. -/
theorem optional_congr (h : Advances body) {m n : Nat} {w : Way} (hm : w.cur.rest.length ≤ m)
    (hn : w.cur.rest.length ≤ n) : optional greedy body m w = optional greedy body n w := by
  induction m generalizing n w with
  | zero => rw [optional_of_rest_nil h (by omega), optional_of_rest_nil h (by omega)]
  | succ m ih =>
    cases n with
    | zero => rw [optional_of_rest_nil h (by omega), optional_of_rest_nil h (by omega)]
    | succ n =>
      -- Behind the body there are fewer characters left than iterations, on either side.
      have hmore : (body w).flatMap (optional greedy body m) =
          (body w).flatMap (optional greedy body n) := by
        refine List.flatMap_congr ?_
        intro v hv
        have := h w v hv
        exact ih (by omega) (by omega)
      rw [optional, optional, hmore]

/-- **The plain rule.** A greedy loop goes through its body and then tries the same again, before it
tries the exit; another one does so after it. -/
theorem unbounded_eq (h : Advances body) (w : Way) :
    unbounded greedy body w =
      if greedy then (body w).flatMap (unbounded greedy body) ++ [w]
      else w :: (body w).flatMap (unbounded greedy body) := by
  have hmore : (body w).flatMap (optional greedy body w.cur.rest.length) =
      (body w).flatMap (unbounded greedy body) := by
    refine List.flatMap_congr ?_
    intro v hv
    exact optional_congr h (Nat.le_of_lt (h w v hv)) (Nat.le_refl _)
  rw [unbounded, optional_congr h (Nat.le_refl _) (Nat.le_succ _), optional, hmore]

end Way

end LinearRegex
