import LinearRegex.Proofs.CaseFold
import LinearRegex.Proofs.Pattern.Readings

/-!
# Patterns that go by folds

A piece goes by folds if none of its tests can tell apart two characters with the same fold. Where
case is ignored, literals and brackets do so: a literal with variants is compared by fold and one
without is the only character with its fold, and a bracket asks the whole orbit. The dot does so in
any case, as no other character folds to the newline. Shorthand classes outside of brackets and
boundaries of words do not.

Main statements: `Bracket.accepts_invariant`, and `Pattern.foldInvariant_of_parse`.
-/

namespace LinearRegex

/-! ## Tests -/

namespace CaseFold

/-- A test that cannot tell apart characters with the same fold. -/
def Invariant (accepts : Char → Bool) : Prop := ∀ c d, fold c = fold d → accepts c = accepts d

theorem invariant_not_newline : Invariant fun c => c != '\n' := by
  intro c d h
  rw [Bool.eq_iff_iff, bne_iff_ne, bne_iff_ne, ne_eq, ne_eq, ← fold_eq_newline_iff, h,
    fold_eq_newline_iff]

/-- A character without variants is told apart from the others by its fold. -/
theorem invariant_of_not_hasVariants {c : Char} (hc : hasVariants c = false) :
    Invariant fun d => d == c := by
  intro d e h
  rw [Bool.eq_iff_iff, beq_iff_eq, beq_iff_eq]
  refine ⟨?_, ?_⟩
  · rintro rfl
    exact eq_of_not_hasVariants hc h.symm
  · rintro rfl
    exact eq_of_not_hasVariants hc h

end CaseFold

/-- **A bracket that ignores case goes by folds.** -/
theorem Bracket.accepts_invariant {b : Bracket} (h : b.ignoreCase = true) :
    CaseFold.Invariant b.accepts := by
  have hheld : ∀ c, (b.holds c || (CaseFold.orbit c).any b.holds) =
      (CaseFold.orbit c).any b.holds := by
    intro c
    cases hc : b.holds c with
    | false => rfl
    | true => exact (List.any_eq_true.mpr ⟨c, CaseFold.mem_orbit_iff.mpr rfl, hc⟩).symm
  intro c d hfold
  unfold accepts
  simp only [h, if_true]
  rw [hheld, hheld, CaseFold.orbit_congr hfold]

/-- An item leaves alone how a bracket goes about what it holds. -/
theorem Bracket.addItem_settings (b : Bracket) (item : BracketItem) :
    (b.addItem item).ignoreCase = b.ignoreCase ∧ (b.addItem item).unicode = b.unicode ∧
      (b.addItem item).negated = b.negated := by
  cases item with
  | escape e =>
    unfold addItem addClass
    dsimp only
    split <;> exact ⟨rfl, rfl, rfl⟩
  | _ => exact ⟨rfl, rfl, rfl⟩

theorem Bracket.ofItems_settings (flags : Flags) (negated : Bool) (items : List BracketItem) :
    (ofItems flags negated items).ignoreCase = flags.ignoreCase ∧
      (ofItems flags negated items).negated = negated := by
  have hfold : ∀ (items : List BracketItem) (b : Bracket),
      (items.foldl addItem b).ignoreCase = b.ignoreCase ∧
        (items.foldl addItem b).negated = b.negated := by
    intro items
    induction items with
    | nil => exact fun b => ⟨rfl, rfl⟩
    | cons item items ih =>
      intro b
      obtain ⟨hcase, -, hnegated⟩ := b.addItem_settings item
      exact ⟨(ih _).1.trans hcase, (ih _).2.trans hnegated⟩
  exact hfold items _

/-! ## Pieces -/

namespace Node

mutual

/-- A piece that cannot tell apart characters with the same fold. -/
def FoldInvariant : Node → Prop
  | .empty => True
  | .char c ignoreCase =>
    CaseFold.Invariant fun d => if ignoreCase then CaseFold.fold d == c else d == c
  | .any => True
  | .anyButNewline => True
  | .bracket b => CaseFold.Invariant b.accepts
  | .assertion a => ∀ negated unicode, a ≠ .wordBoundary negated unicode
  | .cat nodes => AllFoldInvariant nodes
  | .alt branches => AllFoldInvariant branches
  | .loop body _ => FoldInvariant body
  | .group body _ _ => FoldInvariant body

/-- Whether this is so of all pieces of a list. -/
def AllFoldInvariant : List Node → Prop
  | [] => True
  | n :: ns => FoldInvariant n ∧ AllFoldInvariant ns

end

theorem allFoldInvariant_iff {ns : List Node} :
    AllFoldInvariant ns ↔ ∀ n ∈ ns, n.FoldInvariant := by
  induction ns with
  | nil => simp [AllFoldInvariant]
  | cons n ns ih => simp [AllFoldInvariant, ih]

theorem compositional_foldInvariant : Compositional FoldInvariant where
  empty := trivial
  cat h := allFoldInvariant_iff.mpr h
  alt h := allFoldInvariant_iff.mpr h
  loop _ h := h
  group _ _ h := h

theorem foldInvariant_literal (c : Char) {flags : Flags} (h : flags.ignoreCase = true) :
    (literal c flags).FoldInvariant := by
  unfold literal
  rw [h, Bool.true_and]
  split
  · intro d e hfold
    simp only [if_true, hfold]
  · next hc => exact CaseFold.invariant_of_not_hasVariants (Bool.eq_false_iff.mpr hc)

end Node

/-! ## Patterns -/

/-- Whether a token that is read under some flags goes by folds: its case is ignored, or it has
none. Boundaries of words and shorthand classes outside of brackets do not, under any flags. -/
def Token.goesByFold (flags : Flags) : Token → Bool
  | .char _ => flags.ignoreCase
  | .bracket _ _ => flags.ignoreCase
  | .wordBoundary _ => false
  | .escape _ => false
  | _ => true

namespace Pattern

theorem foldInvariant_of_pieceOf? {flags : Flags} {token : Token} {n : Node}
    (h : pieceOf? flags token = some n) (hfold : token.goesByFold flags = true) :
    n.FoldInvariant := by
  cases token with
  | char c =>
    obtain rfl := Option.some.inj h
    exact Node.foldInvariant_literal c hfold
  | dot =>
    obtain rfl := Option.some.inj h
    split <;> trivial
  | bracket negated items =>
    obtain rfl := Option.some.inj h
    exact Bracket.accepts_invariant ((Bracket.ofItems_settings _ _ _).1.trans hfold)
  | caret =>
    obtain rfl := Option.some.inj h
    split <;> simp [Node.FoldInvariant]
  | dollar =>
    obtain rfl := Option.some.inj h
    split <;> simp [Node.FoldInvariant]
  | textStart =>
    obtain rfl := Option.some.inj h
    simp [Node.FoldInvariant]
  | textEnd =>
    obtain rfl := Option.some.inj h
    simp [Node.FoldInvariant]
  | wordBoundary => simp [Token.goesByFold] at hfold
  | escape => simp [Token.goesByFold] at hfold
  | _ => simp [pieceOf?] at h

/-- A pattern all of whose tokens go by folds under the flags in force where they stand. -/
def GoesByFold (source : String) (flags : Flags) : Prop :=
  (readings source flags).all (fun (flags, token) => token.goesByFold flags) = true

/-- **A pattern all of whose tokens go by folds is read to a piece that does.** -/
theorem foldInvariant_of_parse {source : String} {flags : Flags} {pattern : Pattern}
    (h : parse source flags = .ok pattern) (hfold : GoesByFold source flags) :
    pattern.node.FoldInvariant := by
  refine node_of_parse Node.compositional_foldInvariant h fun fl token n hmem hn => ?_
  exact foldInvariant_of_pieceOf? hn (List.all_eq_true.mp hfold (fl, token) hmem)

end Pattern

end LinearRegex
