import LinearRegex.Proofs.Pattern.Quantifiers

/-!
# The shape of what patterns are read to

The tree of a pattern is not high, whatever the pattern: only groups can be nested in each other,
and between one group and the next there are a row, a choice and a loop at most. So a walk down the
tree ends after as many steps as the limit on the nesting of groups allows.

Main statement: `Pattern.parse_shape`.
-/

namespace LinearRegex

open Utf8

/-- A row or a choice of two parts at least, a loop with valid bounds, a bracket with a set in its
one form, or a piece of another kind. -/
def Node.Regular : Node → Prop
  | .cat nodes => 2 ≤ nodes.length
  | .alt branches => 2 ≤ branches.length
  | .loop _ q => q.Valid
  | .bracket b => b.chars.Canonical
  | _ => True

theorem Node.Written.regular {n : Node} (h : n.Written) : n.Regular := by
  cases h with
  | literal c flags =>
    obtain ⟨d, ignoreCase, heq⟩ := literal_eq_char c flags
    rw [heq]
    trivial
  | escape e flags => exact Bracket.canonical_addClass CharSet.canonical_empty e
  | bracket flags negated h => exact Bracket.canonical_ofItems flags negated h
  | cat hlength _ => exact hlength
  | alt hlength _ => exact hlength
  | loop _ hq => exact hq
  | _ => trivial

namespace Pattern

theorem height_of_pieceOf? {flags : Flags} {token : Token} {n : Node}
    (h : pieceOf? flags token = some n) : n.height = 1 := by
  cases token with
  | quantifier => simp [pieceOf?] at h
  | opening => simp [pieceOf?] at h
  | closing => simp [pieceOf?] at h
  | bar => simp [pieceOf?] at h
  | char c =>
    obtain rfl := Option.some.inj h
    obtain ⟨d, ignoreCase, heq⟩ := Node.literal_eq_char c flags
    rw [heq, Node.height]
  | dot =>
    obtain rfl := Option.some.inj h
    split <;> rw [Node.height]
  | _ =>
    obtain rfl := Option.some.inj h
    first | rw [Node.height] | rw [Node.ofEscape, Node.height]

/-! ## One alternation -/

/-- An alternation in which groups are at most so high. A loop can add one to that, but not to
another loop; a row adds one more, and the choice between the branches one more. -/
structure Branches.Low (height : Nat) (b : Branches) : Prop where
  complete : ∀ n ∈ b.complete, n.height ≤ height + 3
  pieces : ∀ n ∈ b.pieces, n.height ≤ height + 2
  last : b.repeatable = true → ∀ n ∈ b.pieces.head?, n.height ≤ height + 1

namespace Branches.Low

variable {b b' : Branches} {n : Node} {height : Nat}

theorem init (height : Nat) : ({} : Branches).Low height := ⟨by simp, by simp, by simp⟩

theorem push (h : b.Low height) (hn : n.height ≤ height + 1) : (b.push n).Low height := by
  refine ⟨h.complete, List.forall_mem_cons.mpr ⟨by omega, h.pieces⟩, ?_⟩
  intro _ m hm
  obtain rfl := Option.some.inj hm
  exact hn

theorem touch (h : b.Low height) : b.touch.Low height :=
  ⟨h.complete, h.pieces, by simp [Branches.touch]⟩

/-- Only a piece that is no loop yet can be repeated. -/
theorem repeatLast (h : b.Low height) {q : Quantifier} (heq : b.repeatLast? q = some b') :
    b'.Low height := by
  obtain ⟨hrepeatable, n, ns, hpieces, rfl⟩ := repeatLast?_eq_some heq
  have hlast := h.last hrepeatable n (by simp [hpieces])
  have hall := h.pieces
  rw [hpieces] at hall
  refine ⟨h.complete, List.forall_mem_cons.mpr ⟨?_, (List.forall_mem_cons.mp hall).2⟩, by simp⟩
  rw [Node.height]
  omega

theorem nodes (h : b.Low height) : ∀ n ∈ b.nodes, n.height ≤ height + 3 := by
  intro n hn
  rw [Branches.nodes, List.mem_reverse] at hn
  rcases List.mem_cons.mp hn with rfl | hn
  · refine Node.height_sequence_le (fun m hm => ?_) (Nat.succ_pos _)
    exact h.pieces m (List.mem_reverse.mp hm)
  · exact h.complete n hn

theorem bar (h : b.Low height) (offset : Nat) : (b.bar offset).Low height := by
  refine ⟨fun n hn => h.nodes n ?_, by simp [Branches.bar], by simp [Branches.bar]⟩
  rw [Branches.nodes, List.mem_reverse]
  exact hn

theorem finish (h : b.Low height) (heq : b.finish = .ok n) : n.height ≤ height + 4 := by
  obtain ⟨-, rfl⟩ := finish_eq_ok heq
  exact Node.height_choice_le h.nodes (Nat.succ_pos _)

end Branches.Low

/-! ## The reader -/

/-- How high a group can be that is not nested deeper than some number of others. -/
def heightWithin (depth : Nat) : Nat := 4 * (deepestNesting - depth)

/-- Whether the alternations around open groups are low, each at its depth. -/
def AroundLow : List OpenGroup → Prop
  | [] => True
  | g :: groups => g.around.Low (heightWithin groups.length) ∧ AroundLow groups

/-- A state of the reader in which all that has been read is low enough for its depth. -/
structure Reader.Low (r : Reader) : Prop where
  depth : r.groups.length ≤ deepestNesting
  branches : r.branches.Low (heightWithin r.groups.length)
  around : AroundLow r.groups

namespace Reader.Low

variable {r r' : Reader} {lx : Lexeme}

theorem init (flags : Flags) : ({ flags } : Reader).Low := ⟨Nat.zero_le _, .init _, trivial⟩

/-- The body of a group is lower than what is around it. -/
theorem closing (h : r.Low) {o : Nat} (heq : r.closing o = .ok r') : r'.Low := by
  obtain ⟨body, g, groups, hbody, hgroups, rfl⟩ := closing_eq_ok heq
  obtain ⟨hdepth, hbranches, haround⟩ := h
  rw [hgroups] at hdepth hbranches haround
  have hlow := hbranches.finish hbody
  rw [List.length_cons] at hdepth hlow
  have hpiece : (g.piece body).height ≤ body.height + 1 := by
    unfold OpenGroup.piece
    split
    · exact Nat.le_succ _
    · rw [Node.height]
  refine ⟨by dsimp only; omega, haround.1.push ?_, haround.2⟩
  unfold heightWithin at hlow ⊢
  omega

theorem opening (h : r.Low) (hdepth : r.groups.length < deepestNesting) {o : Nat}
    {head : GroupHead} (heq : r.opening o head = .ok r') : r'.Low := by
  cases opened_of_opening heq with
  | changed _ heq =>
    subst heq
    exact ⟨h.depth, h.branches.touch, h.around⟩
  | grouped _ heq =>
    subst heq
    exact ⟨hdepth, .init _, h.branches, h.around⟩
  | captured _ _ heq =>
    subst heq
    exact ⟨hdepth, .init _, h.branches, h.around⟩

theorem step (h : r.Low) (heq : r.step lx = .ok r') : r'.Low := by
  cases stepped_of_step heq with
  | piece _ hn heq =>
    subst heq
    refine ⟨h.depth, h.branches.push ?_, h.around⟩
    rw [height_of_pieceOf? hn]
    exact Nat.le_add_left 1 _
  | repeated _ hbranches heq =>
    subst heq
    exact ⟨h.depth, h.branches.repeatLast hbranches, h.around⟩
  | opened _ hdepth heq => exact h.opening hdepth heq
  | closed _ heq => exact h.closing heq
  | barred _ heq =>
    subst heq
    exact ⟨h.depth, h.branches.bar lx.offset, h.around⟩

end Reader.Low

variable {source : String} {flags : Flags} {pattern : Pattern}

/-- **No tree of a pattern is higher** than four pieces for each group that can be nested, and four
more around them. -/
theorem height_le_of_parse (h : parse source flags = .ok pattern) :
    pattern.node.height ≤ 4 * (deepestNesting + 1) := by
  obtain ⟨r, hr, hnode, hgroups, -⟩ := exists_reader_of_parse h
  have hlow : r.Low := by
    refine Reader.foldlM_preserves (fun lx _ r r' h hstep => ?_) (.init flags) hr
    exact h.step hstep
  have hheight := hlow.branches.finish hnode
  rw [hgroups] at hheight
  exact hheight

/-- The quantifier of a loop is one of those that are written in the pattern. -/
theorem exists_spelled_of_part (h : parse source flags = .ok pattern) {body : Node}
    {q : Quantifier} (hloop : pattern.node.Part (.loop body q)) :
    ∃ before text after, source.toList = before ++ text ++ after ∧
      ⟨byteLength before, .ok (.quantifier q)⟩ ∈ Lexeme.all (.ofString source) ∧
      q.Spelled text := by
  have hq := Node.mem_quantifiers_of_part hloop
  rw [quantifiers_of_parse h] at hq
  obtain ⟨lx, hmem, hlx⟩ := List.mem_filterMap.mp hq
  obtain ⟨before, text, after, hsource, hoffset, hspelled⟩ :=
    Lexeme.spelled_of_mem_all _ lx hmem q hlx
  have hoffset : lx.offset = byteLength before := hoffset.trans (Nat.zero_add _)
  refine ⟨before, text, after, hsource, ?_, hspelled⟩
  rw [← hoffset, ← Lexeme.quantifier?_eq_some hlx]
  exact hmem

/-- **The shape of what a pattern is read to.** The loops of the tree, each behind those inside of
it, have the quantifiers that are written in the pattern, in order. The bounds of a loop are in
order and none is above the largest that is allowed, unless there is no upper bound; and there is
none only if the quantifier is written `*` or `+` or with a comma and no second number. Rows and
choices have two parts at least. The set of a bracket is in its one form: its intervals are sorted,
disjoint and not abutting, and end at the largest code point at the latest. No path from the root
down has more than four pieces for each group that can be nested, and four more. -/
theorem parse_shape (h : parse source flags = .ok pattern) :
    pattern.node.quantifiers =
      (Lexeme.all (.ofString source)).filterMap Lexeme.quantifier? ∧
    (∀ body q, pattern.node.Part (.loop body q) →
      q.min ≤ Quantifier.largestBound ∧
      (∀ max, q.max = some max → q.min ≤ max ∧ max ≤ Quantifier.largestBound) ∧
      ∃ before text after, source.toList = before ++ text ++ after ∧
        ⟨byteLength before, .ok (.quantifier q)⟩ ∈ Lexeme.all (.ofString source) ∧
        q.Spelled text ∧ (q.max = none → Quantifier.Endless text)) ∧
    (∀ nodes, pattern.node.Part (.cat nodes) → 2 ≤ nodes.length) ∧
    (∀ branches, pattern.node.Part (.alt branches) → 2 ≤ branches.length) ∧
    (∀ b, pattern.node.Part (.bracket b) → b.chars.Canonical) ∧
    ∀ path, pattern.node.IsPath path → path.length ≤ 4 * (deepestNesting + 1) := by
  have hregular : ∀ n, pattern.node.Part n → n.Regular :=
    fun n hn => ((parse_written h).1.of_part hn).regular
  refine ⟨quantifiers_of_parse h, fun body q hloop => ?_, fun nodes => hregular (.cat nodes),
    fun branches => hregular (.alt branches), fun b => hregular (.bracket b), fun path hpath => ?_⟩
  · obtain ⟨hordered, hbounded⟩ := hregular _ hloop
    obtain ⟨before, text, after, hsource, hmem, hspelled⟩ := exists_spelled_of_part h hloop
    exact ⟨hbounded.1, fun max hmax => ⟨hordered max hmax, hbounded.2 max hmax⟩, before, text,
      after, hsource, hmem, hspelled, hspelled.endless⟩
  · exact Nat.le_trans (Node.length_le_height hpath) (height_le_of_parse h)

/-- Loops around groups and in them, with a choice, a bracket and every kind of bounds. -/
theorem parse_shape_nested : ∃ pattern,
    parse "(?i:(a{2,}?|[^x-z\\d])*c{0,03}){1}" {} = .ok pattern ∧
    pattern.node.quantifiers =
      [⟨2, none, false⟩, ⟨0, none, true⟩, ⟨0, some 3, true⟩, ⟨1, some 1, true⟩] ∧
    (∀ b, pattern.node.Part (.bracket b) → b.chars.Canonical) ∧
    ∀ path, pattern.node.IsPath path → path.length ≤ 4 * (deepestNesting + 1) := by
  obtain ⟨pattern, hparse⟩ : ∃ pattern,
      parse "(?i:(a{2,}?|[^x-z\\d])*c{0,03}){1}" {} = .ok pattern := by
    with_unfolding_all exact ⟨_, rfl⟩
  obtain ⟨hquantifiers, -, -, -, hbrackets, hpaths⟩ := parse_shape hparse
  exact ⟨pattern, hparse, hquantifiers.trans (by decide +kernel), hbrackets, hpaths⟩

end Pattern

end LinearRegex
