import LinearRegex.Proofs.Pattern.Steps

/-!
# The trees that patterns are read to

What the tree of any pattern is made of: rows and choices have at least two parts, the bounds of
loops are in order, the sets of brackets are canonical, and the numbers of groups begin at 1.

Main statements: `Pattern.parse_written`, and `Node.Written.wellFormed`, which collects what the
meaning of a tree rests on.
-/

namespace LinearRegex

/-- The trees that patterns are read to. -/
inductive Node.Written : Node → Prop
  | empty : Written .empty
  | literal (c : Char) (flags : Flags) : Written (.literal c flags)
  | any : Written .any
  | anyButNewline : Written .anyButNewline
  | assertion (a : Assertion) : Written (.assertion a)
  | escape (e : ClassEscape) (flags : Flags) : Written (.ofEscape e flags)
  | bracket (flags : Flags) (negated : Bool) {items : List BracketItem}
    (h : ∀ item ∈ items, item.Valid) : Written (.bracket (.ofItems flags negated items))
  | cat {nodes : List Node} (hlength : 2 ≤ nodes.length) (h : ∀ n ∈ nodes, Written n) :
    Written (.cat nodes)
  | alt {branches : List Node} (hlength : 2 ≤ branches.length) (h : ∀ n ∈ branches, Written n) :
    Written (.alt branches)
  | loop {body : Node} {q : Quantifier} (h : Written body) (hq : q.Valid) : Written (.loop body q)
  | group {body : Node} {index : Nat} (name : Option String) (h : Written body)
    (hindex : 0 < index) : Written (.group body index name)

namespace Node

mutual

/-- A tree whose meaning does not depend on accidents: no choice is between nothing, the bounds of
loops are in order, the sets of brackets are canonical, and no group is group 0. -/
def WellFormed : Node → Prop
  | .empty => True
  | .char _ _ => True
  | .any => True
  | .anyButNewline => True
  | .assertion _ => True
  | .bracket b => b.chars.Canonical
  | .cat nodes => AllWellFormed nodes
  | .alt branches => branches ≠ [] ∧ AllWellFormed branches
  | .loop body q => q.Ordered ∧ WellFormed body
  | .group body index _ => 0 < index ∧ WellFormed body

/-- Whether all trees of a list are well formed. -/
def AllWellFormed : List Node → Prop
  | [] => True
  | n :: ns => WellFormed n ∧ AllWellFormed ns

end

theorem allWellFormed_iff {ns : List Node} : AllWellFormed ns ↔ ∀ n ∈ ns, n.WellFormed := by
  induction ns with
  | nil => simp [AllWellFormed]
  | cons n ns ih => simp [AllWellFormed, ih]

end Node

/-! ## Brackets -/

namespace Bracket

variable {b : Bracket}

theorem canonical_asciiSet (e : ClassEscape) : e.asciiSet.Canonical := by
  have h : (CharSet.empty.insertAll e.cls.asciiIntervals).Canonical :=
    CharSet.canonical_empty.insertAll CharSet.proper_of_mem_asciiIntervals
  unfold ClassEscape.asciiSet
  dsimp only
  split
  · exact h
  · exact h.compl

theorem canonical_addClass (h : b.chars.Canonical) (e : ClassEscape) :
    (b.addClass e).chars.Canonical := by
  unfold addClass
  split
  · exact h
  · exact h.union (canonical_asciiSet e)

theorem canonical_addItem (h : b.chars.Canonical) {item : BracketItem} (hitem : item.Valid) :
    (b.addItem item).chars.Canonical := by
  cases item with
  | char c => exact h.insert ⟨Nat.le_refl _, CharSet.toNat_le_maxCodePoint c⟩
  | range first last => exact h.insert (CharSet.proper_between hitem)
  | escape e => exact canonical_addClass h e
  | named members negated =>
    have hset := CharSet.canonical_empty.insertAll hitem
    refine h.union ?_
    split
    · exact hset.compl
    · exact hset

theorem canonical_foldl_addItem {items : List BracketItem} (h : b.chars.Canonical)
    (hitems : ∀ item ∈ items, item.Valid) : (items.foldl addItem b).chars.Canonical := by
  induction items generalizing b with
  | nil => exact h
  | cons item items ih =>
    obtain ⟨hitem, hitems⟩ := List.forall_mem_cons.mp hitems
    exact ih (canonical_addItem h hitem) hitems

theorem canonical_ofItems (flags : Flags) (negated : Bool) {items : List BracketItem}
    (hitems : ∀ item ∈ items, item.Valid) : (ofItems flags negated items).chars.Canonical :=
  canonical_foldl_addItem CharSet.canonical_empty hitems

end Bracket

namespace Node

theorem literal_eq_char (c : Char) (flags : Flags) :
    ∃ d ignoreCase, literal c flags = .char d ignoreCase := by
  unfold literal
  split
  · exact ⟨_, _, rfl⟩
  · exact ⟨_, _, rfl⟩

/-- **The trees that patterns are read to are well formed.** -/
theorem Written.wellFormed {n : Node} (h : n.Written) : n.WellFormed := by
  induction h with
  | empty => trivial
  | literal c flags =>
    unfold Node.literal
    split <;> trivial
  | any => trivial
  | anyButNewline => trivial
  | assertion a => trivial
  | escape e flags => exact Bracket.canonical_addClass CharSet.canonical_empty e
  | bracket flags negated h => exact Bracket.canonical_ofItems flags negated h
  | cat _ _ ih => exact allWellFormed_iff.mpr ih
  | alt hlength _ ih =>
    refine ⟨?_, allWellFormed_iff.mpr ih⟩
    rintro rfl
    simp at hlength
  | loop _ hq ih => exact ⟨hq.1, ih⟩
  | group _ _ hindex ih => exact ⟨hindex, ih⟩

theorem Written.sequence {ns : List Node} (h : ∀ n ∈ ns, n.Written) : (sequence ns).Written := by
  match ns, h with
  | [], _ => exact .empty
  | [n], h => exact h n List.mem_cons_self
  | _ :: _ :: _, h => exact .cat (Nat.le_add_left 2 _) h

theorem Written.choice {ns : List Node} (h : ∀ n ∈ ns, n.Written) : (choice ns).Written := by
  match ns, h with
  | [], _ => exact .empty
  | [n], h => exact h n List.mem_cons_self
  | _ :: _ :: _, h => exact .alt (Nat.le_add_left 2 _) h

end Node

/-! ## The reader -/

theorem Lexeme.valid_of_mem_all {s : Source} :
    ∀ lx ∈ all s, ∀ token, lx.token = .ok token → token.Valid := by
  fun_induction all s with
  | case1 s hs => simp
  | case2 s lx t hs ih => exact List.forall_mem_cons.mpr ⟨fun token => next?_valid hs, ih⟩

namespace Pattern

theorem written_of_pieceOf? {flags : Flags} {token : Token} {n : Node}
    (h : pieceOf? flags token = some n) (hvalid : token.Valid) : n.Written := by
  cases token with
  | char c =>
    obtain rfl := Option.some.inj h
    exact .literal c flags
  | dot =>
    obtain rfl := Option.some.inj h
    split
    · exact .any
    · exact .anyButNewline
  | escape e =>
    obtain rfl := Option.some.inj h
    exact .escape e flags
  | bracket negated items =>
    obtain rfl := Option.some.inj h
    exact .bracket flags negated hvalid
  | quantifier => simp [pieceOf?] at h
  | opening => simp [pieceOf?] at h
  | closing => simp [pieceOf?] at h
  | bar => simp [pieceOf?] at h
  | _ =>
    obtain rfl := Option.some.inj h
    exact .assertion _

/-- All pieces that have been read of an alternation are as patterns are read to. -/
structure Branches.Written (b : Branches) : Prop where
  complete : ∀ n ∈ b.complete, n.Written
  pieces : ∀ n ∈ b.pieces, n.Written

namespace Branches.Written

variable {b : Branches}

theorem init : ({} : Branches).Written := ⟨by simp, by simp⟩

theorem push (h : b.Written) {n : Node} (hn : n.Written) : (b.push n).Written := by
  refine ⟨h.complete, ?_⟩
  intro m hm
  rcases List.mem_cons.mp hm with rfl | hm
  · exact hn
  · exact h.pieces m hm

theorem repeatLast (h : b.Written) {q : Quantifier} (hq : q.Valid) {b' : Branches}
    (heq : b.repeatLast? q = some b') : b'.Written := by
  obtain ⟨-, n, ns, hpieces, rfl⟩ := repeatLast?_eq_some heq
  have hall := h.pieces
  rw [hpieces] at hall
  refine ⟨h.complete, ?_⟩
  intro m hm
  rcases List.mem_cons.mp hm with rfl | hm
  · exact .loop (hall n List.mem_cons_self) hq
  · exact hall m (List.mem_cons_of_mem _ hm)

/-- Both the branches that are complete and the one being read. -/
theorem nodes (h : b.Written) : ∀ n ∈ b.nodes, n.Written := by
  intro n hn
  rw [Branches.nodes, List.mem_reverse] at hn
  rcases List.mem_cons.mp hn with rfl | hn
  · exact .sequence fun m hm => h.pieces m (List.mem_reverse.mp hm)
  · exact h.complete n hn

theorem bar (h : b.Written) (offset : Nat) : (b.bar offset).Written := by
  refine ⟨fun n hn => h.nodes n ?_, by simp [Branches.bar]⟩
  rw [Branches.nodes, List.mem_reverse]
  exact hn

theorem finish (h : b.Written) {n : Node} (heq : b.finish = .ok n) : n.Written := by
  obtain ⟨-, rfl⟩ := finish_eq_ok heq
  exact .choice h.nodes

end Branches.Written

/-- A state of the reader in which all that has been read is as patterns are read to. -/
structure Reader.Written (r : Reader) : Prop where
  branches : r.branches.Written
  groups : ∀ g ∈ r.groups,
    g.around.Written ∧ ∀ index name, g.capture = some (index, name) → 0 < index
  names : 0 < r.names.size

namespace Reader.Written

variable {r r' : Reader}

theorem init (flags : Flags) : ({ flags } : Reader).Written := ⟨.init, by simp, by simp⟩

theorem push (h : r.Written) {n : Node} (hn : n.Written) : (r.push n).Written :=
  ⟨h.branches.push hn, h.groups, h.names⟩

theorem openGroup (h : r.Written) (offset : Nat) (flags : Flags) :
    (r.openGroup offset flags).Written := by
  refine ⟨.init, fun g hg => ?_, h.names⟩
  rcases List.mem_cons.mp hg with rfl | hg
  · exact ⟨h.branches, by simp⟩
  · exact h.groups g hg

theorem opening (h : r.Written) {offset : Nat} {head : GroupHead}
    (heq : r.opening offset head = .ok r') : r'.Written := by
  cases opened_of_opening heq with
  | changed _ heq =>
    subst heq
    exact ⟨⟨h.branches.complete, h.branches.pieces⟩, h.groups, h.names⟩
  | grouped _ heq =>
    subst heq
    exact h.openGroup offset _
  | captured _ _ heq =>
    subst heq
    refine ⟨.init, fun g hg => ?_, by simp⟩
    rcases List.mem_cons.mp hg with rfl | hg
    · refine ⟨h.branches, ?_⟩
      intro index _ hindex
      rw [← (Prod.mk.inj (Option.some.inj hindex)).1]
      exact h.names
    · exact h.groups g hg

theorem closing (h : r.Written) {offset : Nat} (heq : r.closing offset = .ok r') : r'.Written := by
  obtain ⟨body, g, groups, hbody, hgroups, rfl⟩ := closing_eq_ok heq
  have hbody := h.branches.finish hbody
  -- The group becomes a piece of the alternation around it.
  have hall := h.groups
  rw [hgroups] at hall
  obtain ⟨haround, hcapture⟩ := hall g List.mem_cons_self
  refine ⟨haround.push ?_, fun x hx => hall x (List.mem_cons_of_mem _ hx), h.names⟩
  unfold OpenGroup.piece
  split
  · exact hbody
  · next index name hindex => exact .group name hbody (hcapture index name hindex)

/-- A lexeme with a valid token keeps the reader in order. -/
theorem step (h : r.Written) {lx : Lexeme} (hvalid : ∀ token, lx.token = .ok token → token.Valid)
    (heq : r.step lx = .ok r') : r'.Written := by
  cases stepped_of_step heq with
  | piece htoken hn heq =>
    subst heq
    exact h.push (written_of_pieceOf? hn (hvalid _ htoken))
  | repeated htoken hbranches heq =>
    subst heq
    exact ⟨h.branches.repeatLast (hvalid _ htoken) hbranches, h.groups, h.names⟩
  | opened _ _ heq => exact h.opening heq
  | closed _ heq => exact h.closing heq
  | barred _ heq =>
    subst heq
    exact ⟨h.branches.bar lx.offset, h.groups, h.names⟩

end Reader.Written

/-- **What a pattern is read to.** -/
theorem parse_written {s : String} {flags : Flags} {pattern : Pattern}
    (h : parse s flags = .ok pattern) : pattern.node.Written ∧ 0 < pattern.groupNames.size := by
  obtain ⟨r, hr, hnode, -, hnames⟩ := exists_reader_of_parse h
  have hwritten : r.Written := by
    refine Reader.foldlM_preserves (fun lx hlx r r' h hstep => ?_) (.init flags) hr
    exact h.step (Lexeme.valid_of_mem_all lx hlx) hstep
  exact ⟨hwritten.branches.finish hnode, hnames ▸ hwritten.names⟩

end Pattern

end LinearRegex
