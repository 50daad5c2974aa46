import LinearRegex.Proofs.Pattern.Grouping
import LinearRegex.Proofs.Pattern.Parts
import LinearRegex.Proofs.Pattern.Places

/-!
# Quantifiers and loops

Each quantifier that is read is written in one of the known ways, and the numbers in it are those
that are written. The loops of a tree, each behind those inside of it, have the quantifiers of the
pattern in the order in which they are written.

Main statements: `Lexeme.spelled_of_mem_all` and `Pattern.quantifiers_of_parse`.
-/

namespace LinearRegex

open Source Utf8

variable {s t : Source} {q : Quantifier} {o : Nat}

/-! ## How quantifiers are written -/

namespace Quantifier

/-- The ways to write a quantifier that has no upper bound. -/
inductive Endless : List Char → Prop
  | star : Endless ['*']
  | plus : Endless ['+']
  | atLeast {digits : List Char} (h : IsNumber digits) :
    Endless ('\x7b' :: (digits ++ [',', '\x7d']))
  | lazy {text : List Char} (h : Endless text) : Endless (text ++ ['?'])

/-- **Only a quantifier that says so has no upper bound.** -/
theorem Spelled.endless {text : List Char} (h : q.Spelled text) (hmax : q.max = none) :
    Endless text := by
  have hgreedy : ∀ {text q}, Greedy text q → q.max = none → Endless text := by
    intro text q h hmax
    cases h with
    | star => exact .star
    | plus => exact .plus
    | atLeast h => exact .atLeast h
    | _ => simp at hmax
  cases h with
  | greedy h => exact hgreedy h hmax
  | lazy h => exact .lazy (hgreedy h hmax)

/-- Bounds that are read are written between the braces. -/
theorem exists_reads_of_readCounts? (h : readCounts? s = some (q, t)) :
    ∃ cs, s.Reads cs t ∧ Greedy ('\x7b' :: cs) q := by
  obtain ⟨hreads, hlow⟩ := reads_span s Char.isDigit
  unfold readCounts? at h
  dsimp only at h
  split at h
  · simp at h
  · next hne =>
    obtain ⟨u, hu, hp⟩ := Option.map_eq_some_iff.mp h
    obtain ⟨rfl, rfl⟩ := Prod.mk.inj hp
    have hnumber : IsNumber (s.span Char.isDigit).1 := ⟨by simpa using hne, hlow⟩
    rcases accept_eq_or (s.span Char.isDigit).2 ',' with ⟨v, hv, heq⟩ | ⟨-, heq⟩
    · -- Behind the comma there is another number, or the closing brace at once.
      rw [heq] at hu ⊢
      obtain ⟨hreads', hhigh⟩ := reads_span v fun c => true && c.isDigit
      have hall := (hreads.trans (reads_of_skip? hv)).trans (hreads'.trans (reads_of_skip? hu))
      dsimp only at hall hhigh ⊢
      cases hdigits : (v.span fun c => true && c.isDigit).1 with
      | nil =>
        rw [hdigits, List.append_assoc] at hall
        exact ⟨_, hall, .atLeast hnumber⟩
      | cons c digits =>
        rw [hdigits] at hall hhigh
        rw [List.append_assoc] at hall
        exact ⟨_, hall, .between hnumber ⟨by simp, by simpa using hhigh⟩⟩
    · rw [heq] at hu ⊢
      obtain ⟨hreads', hnone⟩ :=
        reads_span (s.span Char.isDigit).2 fun c => false && c.isDigit
      have hnil : ((s.span Char.isDigit).2.span fun c => false && c.isDigit).1 = [] :=
        List.eq_nil_iff_forall_not_mem.mpr fun c hc => by simpa using hnone c hc
      rw [hnil] at hreads'
      exact ⟨_, hreads.trans (hreads'.trans (reads_of_skip? hu)), .exactly hnumber⟩

/-- The mark behind a quantifier is part of how it is written. -/
theorem exists_reads_of_scanGreed {cs : List Char} (hq : Greedy cs q) {token : Token}
    (h : q.scanGreed s = (token, t)) :
    ∃ q' mark, token = .quantifier q' ∧ s.Reads mark t ∧ Spelled (cs ++ mark) q' := by
  have hgreedy := hq.greedy_eq
  obtain ⟨min, max, greedy⟩ := q
  obtain rfl : greedy = true := hgreedy
  unfold scanGreed at h
  rcases accept_eq_or s '?' with ⟨u, hu, heq⟩ | ⟨-, heq⟩
  · rw [heq] at h
    obtain ⟨rfl, rfl⟩ := Prod.mk.inj h
    exact ⟨_, ['?'], rfl, reads_of_skip? hu, .lazy hq⟩
  · rw [heq] at h
    obtain ⟨rfl, rfl⟩ := Prod.mk.inj h
    exact ⟨_, [], rfl, .refl s, by rw [List.append_nil]; exact .greedy hq⟩

theorem readCounts?_of_scanCounts {o : Nat} (h : scanCounts o s = .ok (q, t)) :
    readCounts? s = some (q, t) := by
  unfold scanCounts at h
  split at h
  · simp at h
  · next hread =>
    split at h
    · simp at h
    · split at h
      · simp at h
      · obtain ⟨rfl, rfl⟩ := Prod.mk.inj (Except.ok.inj h)
        exact hread

end Quantifier

namespace Token

theorem greedy_of_quantifier? {c : Char} (h : quantifier? c = some q) : q.Greedy [c] := by
  unfold quantifier? at h
  split at h
  · exact Option.some.inj h ▸ .star
  · exact Option.some.inj h ▸ .plus
  · exact Option.some.inj h ▸ .question
  · simp at h

theorem scanEscape_ne_quantifier {o : Nat} : scanEscape o s ≠ .ok (.quantifier q, t) := by
  intro h
  unfold scanEscape at h
  repeat' split at h
  all_goals simp at h

theorem bracket_ne_quantifier {o : Nat} : BracketItem.scan o s ≠ .ok (.quantifier q, t) := by
  intro h
  unfold BracketItem.scan at h
  dsimp only at h
  split at h <;> simp at h

/-- **A quantifier that is read is written** in one of the known ways. -/
theorem exists_reads_of_scan {o : Nat} {c : Char} (h : scan o c s = .ok (.quantifier q, t)) :
    ∃ cs, s.Reads cs t ∧ q.Spelled (c :: cs) := by
  have hgreed : ∀ {q₀ : Quantifier} {u : Source} {cs}, s.Reads cs u → q₀.Greedy (c :: cs) →
      q₀.scanGreed u = (.quantifier q, t) → ∃ cs, s.Reads cs t ∧ q.Spelled (c :: cs) := by
    intro q₀ u cs hcs hq₀ h
    obtain ⟨q', mark, hq', hmark, hspelled⟩ := Quantifier.exists_reads_of_scanGreed hq₀ h
    obtain rfl := Token.quantifier.inj hq'
    exact ⟨cs ++ mark, hcs.trans hmark, hspelled⟩
  unfold scan at h
  split at h
  · next hsingle =>
    obtain ⟨rfl, -⟩ := Prod.mk.inj (Except.ok.inj h)
    unfold single? at hsingle
    split at hsingle <;> simp at hsingle
  · next hquantifier =>
    exact hgreed (.refl s) (greedy_of_quantifier? hquantifier) (Except.ok.inj h)
  · split at h
    · next hc =>
      subst hc
      split at h
      · simp at h
      · next q₀ u hu =>
        obtain ⟨cs, hcs, hq₀⟩ :=
          Quantifier.exists_reads_of_readCounts? (Quantifier.readCounts?_of_scanCounts hu)
        exact hgreed hcs hq₀ (Except.ok.inj h)
    · split at h
      · split at h <;> simp at h
      · split at h
        · exact absurd h bracket_ne_quantifier
        · split at h
          · simp at h
          · split at h
            · exact absurd h scanEscape_ne_quantifier
            · simp at h

end Token

/-- The quantifier that a lexeme is, if it is one. -/
def Lexeme.quantifier? (lx : Lexeme) : Option Quantifier :=
  match lx.token with
  | .ok (.quantifier q) => some q
  | _ => none

namespace Lexeme

variable {lx : Lexeme}

theorem quantifier?_eq_some (h : lx.quantifier? = some q) : lx.token = .ok (.quantifier q) := by
  unfold quantifier? at h
  split at h
  · next htoken =>
    obtain rfl := Option.some.inj h
    exact htoken
  · simp at h

theorem quantifier?_eq_none {token : Token} (h : lx.token = .ok token)
    (hne : ∀ q, token ≠ .quantifier q) : lx.quantifier? = none := by
  unfold quantifier?
  split
  · next q hq => exact absurd (Except.ok.inj (h.symm.trans hq)) (hne q)
  · rfl

theorem exists_reads_of_next?_quantifier (h : next? s = some (lx, t))
    (hq : lx.quantifier? = some q) : ∃ cs, s.Reads cs t ∧ q.Spelled cs := by
  unfold next? at h
  split at h
  · simp at h
  · next c u hu =>
    split at h
    · obtain ⟨rfl, -⟩ := Prod.mk.inj (Option.some.inj h)
      simp [quantifier?] at hq
    · next token v hv =>
      obtain ⟨rfl, rfl⟩ := Prod.mk.inj (Option.some.inj h)
      obtain rfl := Except.ok.inj (quantifier?_eq_some hq)
      obtain ⟨cs, hcs, hspelled⟩ := Token.exists_reads_of_scan hv
      exact ⟨c :: cs, (reads_of_next? hu).trans hcs, hspelled⟩

/-- **The quantifiers of a pattern** stand where their lexemes begin. -/
theorem spelled_of_mem_all (s : Source) : ∀ lx ∈ all s, ∀ q, lx.quantifier? = some q →
    ∃ before text after, s.rest = before ++ text ++ after ∧
      lx.offset = s.offset + byteLength before ∧ q.Spelled text := by
  fun_induction all s with
  | case1 s hs => simp
  | case2 s lx t hs ih =>
    refine List.forall_mem_cons.mpr ⟨fun q hq => ?_, fun lx' hlx' q hq => ?_⟩
    · obtain ⟨text, htext, hspelled⟩ := exists_reads_of_next?_quantifier hs hq
      exact ⟨[], text, t.rest, htext.rest, offset_of_next? hs, hspelled⟩
    · obtain ⟨c, cs, hcs⟩ := exists_reads_of_next? hs
      obtain ⟨before, text, after, hrest, hoffset, hspelled⟩ := ih lx' hlx' q hq
      refine ⟨c :: cs ++ before, text, after, ?_, ?_, hspelled⟩
      · rw [hcs.rest, hrest]
        simp only [List.append_assoc]
      · rw [hoffset, hcs.offset, byteLength_append, Nat.add_assoc]

end Lexeme

/-! ## The loops of a tree -/

namespace Node

mutual

/-- The quantifiers of the loops of a piece, each behind those inside of it. -/
def quantifiers : Node → List Quantifier
  | .empty => []
  | .char _ _ => []
  | .any => []
  | .anyButNewline => []
  | .bracket _ => []
  | .assertion _ => []
  | .cat nodes => quantifiersAll nodes
  | .alt branches => quantifiersAll branches
  | .loop body q => quantifiers body ++ [q]
  | .group body _ _ => quantifiers body

/-- The quantifiers of the loops of pieces, from left to right. -/
def quantifiersAll : List Node → List Quantifier
  | [] => []
  | n :: ns => quantifiers n ++ quantifiersAll ns

end

theorem quantifiersAll_eq_flatMap (ns : List Node) :
    quantifiersAll ns = ns.flatMap quantifiers := by
  induction ns with
  | nil => rw [quantifiersAll, List.flatMap_nil]
  | cons n ns ih => rw [quantifiersAll, ih, List.flatMap_cons]

theorem quantifiers_sequence (ns : List Node) :
    (sequence ns).quantifiers = ns.flatMap quantifiers := by
  rw [← quantifiersAll_eq_flatMap]
  match ns with
  | [] => rw [sequence, quantifiers, quantifiersAll]
  | [n] => rw [sequence, quantifiersAll, quantifiersAll, List.append_nil]
  | n :: m :: ns => exact quantifiers.eq_def (.cat (n :: m :: ns))

theorem quantifiers_choice (ns : List Node) :
    (choice ns).quantifiers = ns.flatMap quantifiers := by
  rw [← quantifiersAll_eq_flatMap]
  match ns with
  | [] => rw [choice, quantifiers, quantifiersAll]
  | [n] => rw [choice, quantifiersAll, quantifiersAll, List.append_nil]
  | n :: m :: ns => exact quantifiers.eq_def (.alt (n :: m :: ns))

/-- The loops of a child are loops of the piece around it. -/
theorem quantifiers_subset_of_mem_children {n m : Node} (h : m ∈ n.children) :
    m.quantifiers ⊆ n.quantifiers := by
  have hall : ∀ {ns : List Node}, m ∈ ns → m.quantifiers ⊆ quantifiersAll ns := by
    intro ns hm q hq
    rw [quantifiersAll_eq_flatMap]
    exact List.mem_flatMap_of_mem hm hq
  cases n with
  | cat nodes =>
    rw [quantifiers]
    exact hall h
  | alt branches =>
    rw [quantifiers]
    exact hall h
  | loop body q =>
    obtain rfl := List.mem_singleton.mp h
    rw [quantifiers]
    exact List.subset_append_left _ _
  | group body index name =>
    obtain rfl := List.mem_singleton.mp h
    rw [quantifiers]
    exact List.Subset.refl _
  | _ => simp [children] at h

theorem mem_quantifiers_of_part {root body : Node} (h : root.Part (.loop body q)) :
    q ∈ root.quantifiers := by
  have hsubset : ∀ {n}, root.Part n → n.quantifiers ⊆ root.quantifiers := by
    intro n hn
    induction hn with
    | root => exact List.Subset.refl _
    | child _ hm ih => exact List.Subset.trans (quantifiers_subset_of_mem_children hm) ih
  refine hsubset h ?_
  rw [quantifiers]
  exact List.mem_append_right _ List.mem_cons_self

end Node

namespace Pattern

/-- A piece that a token alone stands for has no loops. -/
theorem quantifiers_of_pieceOf? {flags : Flags} {token : Token} {n : Node}
    (h : pieceOf? flags token = some n) : n.quantifiers = [] := by
  cases token with
  | quantifier => simp [pieceOf?] at h
  | opening => simp [pieceOf?] at h
  | closing => simp [pieceOf?] at h
  | bar => simp [pieceOf?] at h
  | char c =>
    obtain rfl := Option.some.inj h
    obtain ⟨d, ignoreCase, heq⟩ := Node.literal_eq_char c flags
    rw [heq, Node.quantifiers]
  | dot =>
    obtain rfl := Option.some.inj h
    split <;> rw [Node.quantifiers]
  | _ =>
    obtain rfl := Option.some.inj h
    first | rw [Node.quantifiers] | rw [Node.ofEscape, Node.quantifiers]

/-! ## The loops that have been read -/

namespace Branches

variable {b b' : Branches} {n : Node}

/-- The quantifiers of the loops that have been read of an alternation. -/
def quantifiers (b : Branches) : List Quantifier :=
  b.complete.reverse.flatMap Node.quantifiers ++ b.pieces.reverse.flatMap Node.quantifiers

theorem quantifiers_push (b : Branches) (n : Node) :
    (b.push n).quantifiers = b.quantifiers ++ n.quantifiers := by
  unfold quantifiers push
  rw [List.reverse_cons, List.flatMap_append, List.flatMap_singleton, List.append_assoc]

theorem quantifiers_repeatLast? (h : b.repeatLast? q = some b') :
    b'.quantifiers = b.quantifiers ++ [q] := by
  obtain ⟨-, n, ns, hpieces, rfl⟩ := repeatLast?_eq_some h
  unfold quantifiers
  rw [hpieces, List.reverse_cons, List.reverse_cons, List.flatMap_append, List.flatMap_append,
    List.flatMap_singleton, List.flatMap_singleton, Node.quantifiers]
  simp only [List.append_assoc]

theorem flatMap_nodes (b : Branches) : b.nodes.flatMap Node.quantifiers = b.quantifiers := by
  unfold quantifiers nodes
  rw [List.reverse_cons, List.flatMap_append, List.flatMap_singleton, Node.quantifiers_sequence]

theorem quantifiers_bar (b : Branches) (o : Nat) : (b.bar o).quantifiers = b.quantifiers := by
  rw [← flatMap_nodes b]
  exact List.append_nil _

theorem quantifiers_finish (h : b.finish = .ok n) : n.quantifiers = b.quantifiers := by
  obtain ⟨-, rfl⟩ := finish_eq_ok h
  rw [Node.quantifiers_choice, flatMap_nodes]

end Branches

/-- The quantifiers of the loops that have been read around some open groups. -/
def quantifiersBefore : List OpenGroup → List Quantifier
  | [] => []
  | g :: groups => quantifiersBefore groups ++ g.around.quantifiers

namespace Reader

variable {r r' : Reader} {lx : Lexeme} {lxs : List Lexeme}

/-- The quantifiers of the loops that have been read, in order. -/
def quantifiers (r : Reader) : List Quantifier :=
  quantifiersBefore r.groups ++ r.branches.quantifiers

theorem quantifiers_closing {o : Nat} (h : r.closing o = .ok r') :
    r'.quantifiers = r.quantifiers := by
  obtain ⟨body, g, groups, hbody, hgroups, rfl⟩ := closing_eq_ok h
  have hpiece : (g.piece body).quantifiers = r.branches.quantifiers := by
    rw [← Branches.quantifiers_finish hbody]
    unfold OpenGroup.piece
    split
    · rfl
    · rw [Node.quantifiers]
  unfold quantifiers
  dsimp only
  rw [hgroups, quantifiersBefore, Branches.quantifiers_push, hpiece, List.append_assoc]

/-- **A lexeme adds a loop** if it is a quantifier, and none else. -/
theorem quantifiers_step (h : r.step lx = .ok r') :
    r'.quantifiers = r.quantifiers ++ lx.quantifier?.toList := by
  -- A lexeme that is no quantifier adds none.
  have hsame : ∀ {token}, lx.token = .ok token → (∀ q, token ≠ .quantifier q) →
      r'.quantifiers = r.quantifiers → r'.quantifiers = r.quantifiers ++ lx.quantifier?.toList := by
    intro token htoken hne heq
    rw [heq, Lexeme.quantifier?_eq_none htoken hne]
    exact (List.append_nil _).symm
  cases stepped_of_step h with
  | piece htoken hn hr =>
    refine hsame htoken (fun q hq => by simp [hq, pieceOf?] at hn) ?_
    subst hr
    unfold quantifiers push
    rw [Branches.quantifiers_push, quantifiers_of_pieceOf? hn, List.append_nil]
  | @repeated q branches htoken hbranches hr =>
    have hlx : lx.quantifier? = some q := by
      unfold Lexeme.quantifier?
      rw [htoken]
    subst hr
    unfold quantifiers
    rw [hlx, List.append_assoc]
    exact congrArg (_ ++ ·) (Branches.quantifiers_repeatLast? hbranches)
  | barred htoken hr =>
    refine hsame htoken (by simp) ?_
    subst hr
    exact congrArg (_ ++ ·) (Branches.quantifiers_bar _ _)
  | closed htoken hr => exact hsame htoken (by simp) (quantifiers_closing hr)
  | opened htoken _ hr =>
    refine hsame htoken (by simp) ?_
    cases opened_of_opening hr with
    | changed _ hr =>
      subst hr
      rfl
    | grouped _ hr =>
      subst hr
      exact List.append_nil _
    | captured _ _ hr =>
      subst hr
      exact List.append_nil _

theorem quantifiers_foldlM (h : lxs.foldlM step r = .ok r') :
    r'.quantifiers = r.quantifiers ++ lxs.filterMap Lexeme.quantifier? := by
  induction lxs generalizing r with
  | nil =>
    obtain rfl := Except.ok.inj h
    exact (List.append_nil _).symm
  | cons lx lxs ih =>
    obtain ⟨r₁, h₁, hrun⟩ := exists_step_of_foldlM h
    rw [ih hrun, quantifiers_step h₁, List.append_assoc]
    cases hlx : lx.quantifier? with
    | none =>
      rw [List.filterMap_cons_none hlx]
      rfl
    | some q =>
      rw [List.filterMap_cons_some hlx]
      rfl

end Reader

/-- **The loops of a pattern**, each behind those inside of it, have the quantifiers that are
written in it, in order. -/
theorem quantifiers_of_parse {source : String} {flags : Flags} {pattern : Pattern}
    (h : parse source flags = .ok pattern) : pattern.node.quantifiers =
      (Lexeme.all (.ofString source)).filterMap Lexeme.quantifier? := by
  obtain ⟨r, hr, hnode, hgroups, -⟩ := exists_reader_of_parse h
  have hread := Reader.quantifiers_foldlM hr
  unfold Reader.quantifiers at hread
  rw [hgroups, quantifiersBefore, ← Branches.quantifiers_finish hnode] at hread
  exact hread

end Pattern

end LinearRegex
