import LinearRegex.Proofs.Pattern.Backtracking

/-!
# Backtracking without empty iterations

The simplest rule against going round for ever: an iteration without a bound that takes no character
is rejected, so that the next way through the body is tried, and the exit when there is none left.

Main statement: the rule makes no difference as long as the bodies of such loops take characters
(`Pattern.advancingBacktrack_eq_backtrack`).
-/

namespace LinearRegex

namespace Way

/-- The ways through an iteration that takes a character; the others are rejected. -/
def advancing (body : Way → List Way) (w : Way) : List Way :=
  (body w).filter fun v => v.cur.rest.length < w.cur.rest.length

/-- Loops over such iterations follow the plain rule of `unbounded_eq`. -/
theorem advances_advancing (body : Way → List Way) : Advances (advancing body) := by
  intro w v hv
  simpa using (List.mem_filter.mp hv).2

end Way

namespace Node

mutual

/-- The ways to match a piece if an iteration without a bound that takes no character is rejected,
and nothing else is. -/
def advancingWays : Node → Way → List Way
  | .empty, w => [w]
  | .char c ignoreCase, w =>
    w.take fun d => if ignoreCase then CaseFold.fold d == c else d == c
  | .any, w => w.take fun _ => true
  | .anyButNewline, w => w.take fun d => d != '\n'
  | .bracket b, w => w.take b.accepts
  | .assertion a, w => if a.holds w.cur then [w] else []
  | .cat nodes, w => advancingWaysAll nodes w
  | .alt branches, w => advancingWaysSome branches w
  | .loop body ⟨min, none, greedy⟩, w =>
    (Way.mandatory (advancingWays body) min w).flatMap
      (Way.unbounded greedy (Way.advancing (advancingWays body)))
  | .loop body ⟨min, some max, greedy⟩, w =>
    (Way.mandatory (advancingWays body) min w).flatMap
      (Way.optional greedy (advancingWays body) (max - min))
  | .group body index _, w =>
    (advancingWays body (w.record (2 * index))).map (·.record (2 * index + 1))

/-- The ways to match pieces one after the other. -/
def advancingWaysAll : List Node → Way → List Way
  | [], w => [w]
  | n :: ns, w => (advancingWays n w).flatMap (advancingWaysAll ns)

/-- The ways to match one of several branches. -/
def advancingWaysSome : List Node → Way → List Way
  | [], _ => []
  | n :: ns, w => advancingWays n w ++ advancingWaysSome ns w

end

end Node

/-- What a backtracking matcher that rejects iterations which take no character makes of a pattern
at a place. -/
def Pattern.advancingBacktrack (pattern : Pattern) (width : Nat) (cur : Cursor) : Option Slots :=
  ((Node.group pattern.node 0 none).advancingWays ⟨cur, .replicate width none⟩).head?.map Way.slots

/-! ## Where bodies take characters -/

namespace Way

theorem advancing_eq_self {body : Way → List Way} (h : Advances body) : advancing body = body := by
  funext w
  refine List.filter_eq_self.mpr ?_
  intro v hv
  simpa using h w v hv

end Way

namespace Node

mutual

/-- **Where bodies take characters, nothing is rejected.** -/
theorem advancingWays_eq_ways : ∀ {n : Node}, n.WellFormed → n.loopsAdvance = true →
    n.advancingWays = n.ways
  | .empty, _, _ => by
    funext w
    rw [advancingWays, ways]
  | .char _ _, _, _ => by
    funext w
    rw [advancingWays, ways]
  | .any, _, _ => by
    funext w
    rw [advancingWays, ways]
  | .anyButNewline, _, _ => by
    funext w
    rw [advancingWays, ways]
  | .bracket _, _, _ => by
    funext w
    rw [advancingWays, ways]
  | .assertion _, _, _ => by
    funext w
    rw [advancingWays, ways]
  | .cat nodes, hw, hl => by
    funext w
    rw [advancingWays, ways, advancingWaysAll_eq_waysAll hw hl]
  | .alt branches, hw, hl => by
    funext w
    rw [advancingWays, ways, advancingWaysSome_eq_waysSome hw.2 hl]
  | .loop body ⟨min, none, greedy⟩, hw, hl => by
    rw [loopsAdvance, Bool.and_eq_true] at hl
    have hempty : body.canMatchEmpty = false := by simpa using hl.1
    funext w
    rw [advancingWays, ways, advancingWays_eq_ways hw.2 hl.2,
      Way.advancing_eq_self (Way.advances_ways hw.2 hempty)]
  | .loop body ⟨min, some max, greedy⟩, hw, hl => by
    rw [loopsAdvance, Bool.and_eq_true] at hl
    funext w
    rw [advancingWays, ways, advancingWays_eq_ways hw.2 hl.2]
  | .group body index name, hw, hl => by
    rw [loopsAdvance] at hl
    funext w
    rw [advancingWays, ways, advancingWays_eq_ways hw.2 hl]

theorem advancingWaysAll_eq_waysAll : ∀ {ns : List Node}, AllWellFormed ns →
    allLoopsAdvance ns = true → advancingWaysAll ns = waysAll ns
  | [], _, _ => by
    funext w
    rw [advancingWaysAll, waysAll]
  | n :: ns, hw, hl => by
    rw [allLoopsAdvance, Bool.and_eq_true] at hl
    funext w
    rw [advancingWaysAll, waysAll, advancingWays_eq_ways hw.1 hl.1,
      advancingWaysAll_eq_waysAll hw.2 hl.2]

theorem advancingWaysSome_eq_waysSome : ∀ {ns : List Node}, AllWellFormed ns →
    allLoopsAdvance ns = true → advancingWaysSome ns = waysSome ns
  | [], _, _ => by
    funext w
    rw [advancingWaysSome, waysSome]
  | n :: ns, hw, hl => by
    rw [allLoopsAdvance, Bool.and_eq_true] at hl
    funext w
    rw [advancingWaysSome, waysSome, advancingWays_eq_ways hw.1 hl.1,
      advancingWaysSome_eq_waysSome hw.2 hl.2]

end

end Node

theorem Pattern.advancingBacktrack_eq_backtrack {pattern : Pattern}
    (hw : pattern.node.WellFormed) (hl : pattern.node.loopsAdvance = true) :
    pattern.advancingBacktrack = pattern.backtrack := by
  funext width cur
  unfold Pattern.advancingBacktrack Pattern.backtrack
  rw [Node.advancingWays, Node.ways, Node.advancingWays_eq_ways hw hl]

end LinearRegex
