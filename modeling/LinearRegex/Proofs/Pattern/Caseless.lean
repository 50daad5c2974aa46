import LinearRegex.Proofs.Bracket.Members
import LinearRegex.Proofs.Pattern.Denotation

/-!
# Literals and brackets without case

Where case is ignored, a literal compares folds, or is compared as it stands if it has no variants,
and a bracket asks for the members of an orbit. The two agree, whatever the fold function is: both
take just the characters with the same fold.

The fold function is an argument of what is defined here. With the Unicode fold these are the
literals and brackets of patterns.

Main statement: `Node.caseless_classes`.
-/

namespace LinearRegex

open CaseFold

variable {foldOf : Char → Char} {c d : Char} {flags : Flags}

/-! ## By any fold function -/

/-- Whether a bracket matches a character, where case goes by a fold function. -/
def Bracket.acceptsBy (foldOf : Char → Char) (b : Bracket) (c : Char) : Bool :=
  let held := if b.ignoreCase then b.holds c || (orbitBy foldOf c).any b.holds else b.holds c
  held != b.negated

theorem Bracket.acceptsBy_fold (b : Bracket) : b.acceptsBy fold = b.accepts := rfl

namespace Node

/-- The piece for a character that stands for itself, where case goes by a fold function. -/
def literalBy (foldOf : Char → Char) (c : Char) (flags : Flags) : Node :=
  if flags.ignoreCase && hasVariantsBy foldOf c then .char (foldOf c) true else .char c false

theorem literalBy_fold (c : Char) (flags : Flags) : literalBy fold c flags = literal c flags := rfl

/-- Whether a piece takes a single character, where case goes by a fold function. -/
def takesBy (foldOf : Char → Char) : Node → Char → Bool
  | .char c ignoreCase, d => if ignoreCase then foldOf d == c else d == c
  | .bracket b, d => b.acceptsBy foldOf d
  | .any, _ => true
  | .anyButNewline, d => d != '\n'
  | _, _ => false

/-- Pieces for a single character match where they take it by the Unicode fold. -/
theorem matches_literal_iff {i j : Cursor} :
    (literal c flags).Matches i j ↔ i.Takes ((literal c flags).takesBy fold) j := by
  unfold literal
  split
  · rw [Matches]
    rfl
  · rw [Matches]
    rfl

theorem matches_bracket_iff {b : Bracket} {i j : Cursor} :
    (bracket b).Matches i j ↔ i.Takes ((bracket b).takesBy fold) j := by
  rw [Matches, ← Bracket.acceptsBy_fold]
  rfl

/-! ## What is taken -/

/-- **A literal takes the characters with its fold.** One that has no variants is the only one. -/
theorem literalBy_takes_iff (h : ∀ c, lastCased < c.toNat → foldOf c = c)
    (hcase : flags.ignoreCase = true) :
    (literalBy foldOf c flags).takesBy foldOf d = true ↔ foldOf c = foldOf d := by
  unfold literalBy
  rw [hcase, Bool.true_and]
  split
  · rw [takesBy, if_pos rfl, beq_iff_eq]
    exact eq_comm
  · next hvariants =>
    rw [takesBy, if_neg Bool.false_ne_true, beq_iff_eq]
    constructor
    · rintro rfl
      rfl
    · intro hfold
      by_contra hne
      exact hvariants ((classes_by h).hasVariants_iff.mpr ⟨d, hne, hfold.symm⟩)

end Node

/-- What a bracket is that holds a single character and ignores its case. -/
structure Bracket.Caseless (b : Bracket) (c : Char) : Prop where
  ignoreCase : b.ignoreCase = true
  negated : b.negated = false
  holds_iff : ∀ e, b.holds e = true ↔ e = c

/-- The bracket that patterns have for a single character is one where they ignore case. -/
theorem Bracket.caseless_ofItems (hcase : flags.ignoreCase = true) :
    (ofItems flags false [.char c]).Caseless c := by
  obtain ⟨hignore, hnegated⟩ := ofItems_settings flags false [.char c]
  refine ⟨hignore.trans hcase, hnegated, fun e => ?_⟩
  rw [holds_ofItems_iff (by simp [BracketItem.Valid])]
  simp [BracketItem.Holds]

/-- **A bracket for a single character takes the characters with its fold**: the character is in the
orbit of each of them. -/
theorem Bracket.Caseless.acceptsBy_iff (h : ∀ c, lastCased < c.toNat → foldOf c = c) {b : Bracket}
    (hb : b.Caseless c) : b.acceptsBy foldOf d = true ↔ foldOf c = foldOf d := by
  unfold acceptsBy
  rw [if_pos hb.ignoreCase, hb.negated]
  simp only [Bool.bne_false, Bool.or_eq_true, List.any_eq_true, hb.holds_iff]
  constructor
  · rintro (rfl | ⟨e, he, rfl⟩)
    · rfl
    · exact (mem_orbitBy_iff h).mp he
  · exact fun hfold => Or.inr ⟨c, (mem_orbitBy_iff h).mpr hfold, rfl⟩

namespace Node

/-- **Case is ignored by the classes of a fold function.** Let any fold function leave alone what
lies above the characters with case; it may have folds that have other folds. Then the orbit of a
character lists the characters with its fold, each once; a character has variants where there is
another one with its fold; and where case is ignored, the literal for a character and a bracket with
just this character take the same characters, those with its fold. The Unicode fold is one of these
functions, and so all this is true of the orbits, the literals and the brackets of patterns. -/
theorem caseless_classes :
    (∀ foldOf : Char → Char, (∀ c, lastCased < c.toNat → foldOf c = c) →
      Classes foldOf (orbitBy foldOf) (hasVariantsBy foldOf) ∧
      ∀ flags : Flags, flags.ignoreCase = true → ∀ c d,
        ((literalBy foldOf c flags).takesBy foldOf d = true ↔ foldOf c = foldOf d) ∧
        ∀ b : Bracket, b.Caseless c →
          ((bracket b).takesBy foldOf d = true ↔ foldOf c = foldOf d)) ∧
    Classes fold CaseFold.orbit CaseFold.hasVariants ∧
    ∀ flags : Flags, flags.ignoreCase = true → ∀ c i j,
      ((literal c flags).Matches i j ↔ i.Takes (fun d => fold c == fold d) j) ∧
      ((bracket (.ofItems flags false [.char c])).Matches i j ↔
        i.Takes (fun d => fold c == fold d) j) := by
  refine ⟨fun foldOf h => ⟨classes_by h, fun flags hcase c d => ?_⟩, classes_fold,
    fun flags hcase c i j => ?_⟩
  · exact ⟨literalBy_takes_iff h hcase, fun b hb => hb.acceptsBy_iff h⟩
  · have h : ∀ c, lastCased < c.toNat → fold c = c := fun _ => fold_of_lastCased_lt
    have hliteral : (literal c flags).takesBy fold = fun d => fold c == fold d := by
      funext d
      rw [Bool.eq_iff_iff, beq_iff_eq, ← literalBy_fold]
      exact literalBy_takes_iff h hcase
    have hbracket : (bracket (.ofItems flags false [.char c])).takesBy fold =
        fun d => fold c == fold d := by
      funext d
      rw [Bool.eq_iff_iff, beq_iff_eq]
      exact (Bracket.caseless_ofItems hcase).acceptsBy_iff h
    rw [matches_literal_iff, matches_bracket_iff, hliteral, hbracket]
    exact ⟨Iff.rfl, Iff.rfl⟩

/-- A fold function by which `a` folds to `b` and `b` to `c`, so that the fold of `a` has another
fold. The literal and the bracket for `b` both take `c`, and neither takes `a`, which has no
variants. By the Unicode fold, the literal and the bracket for `k` both match the Kelvin sign. -/
theorem caseless_classes_not_idempotent :
    let step : Char → Char := fun c => if c = 'a' then 'b' else if c = 'b' then 'c' else c
    let flags : Flags := { ignoreCase := true }
    (∀ c, lastCased < c.toNat → step c = c) ∧ step (step 'a') ≠ step 'a' ∧
    hasVariantsBy step 'a' = false ∧ hasVariantsBy step 'b' = true ∧
    (literalBy step 'b' flags).takesBy step 'c' = true ∧
    (bracket (.ofItems flags false [.char 'b'])).takesBy step 'c' = true ∧
    (literalBy step 'b' flags).takesBy step 'a' = false ∧
    (bracket (.ofItems flags false [.char 'b'])).takesBy step 'a' = false ∧
    'k' ∈ CaseFold.orbit '\u212a' ∧
    (literal 'k' flags).Matches ⟨0, none, ['\u212a']⟩ ⟨3, some '\u212a', []⟩ ∧
    (bracket (.ofItems flags false [.char 'k'])).Matches
      ⟨0, none, ['\u212a']⟩ ⟨3, some '\u212a', []⟩ := by
  intro step flags
  have hstep : ∀ c, lastCased < c.toNat → step c = c := by
    intro c hc
    have ha : c ≠ 'a' := by rintro rfl; simp [lastCased] at hc
    have hb : c ≠ 'b' := by rintro rfl; simp [lastCased] at hc
    simp only [step, if_neg ha, if_neg hb]
  obtain ⟨hby, hclasses, hpieces⟩ := caseless_classes
  obtain ⟨hstepClasses, htakes⟩ := hby step hstep
  have hb : (Bracket.ofItems flags false [.char 'b']).Caseless 'b' := Bracket.caseless_ofItems rfl
  have htakesC := htakes flags rfl 'b' 'c'
  have htakesA := htakes flags rfl 'b' 'a'
  have hkelvin : Cursor.Takes (fun d => fold 'k' == fold d) ⟨0, none, ['\u212a']⟩
      ⟨3, some '\u212a', []⟩ := ⟨'\u212a', rfl, by decide +kernel, rfl⟩
  refine ⟨hstep, by decide, ?_, hstepClasses.hasVariants_iff.mpr ⟨'c', by decide, by decide⟩,
    htakesC.1.mpr (by decide), (htakesC.2 _ hb).mpr (by decide), ?_, ?_,
    hclasses.mem_iff.mpr (by decide +kernel), (hpieces flags rfl 'k' _ _).1.mpr hkelvin,
    (hpieces flags rfl 'k' _ _).2.mpr hkelvin⟩
  · rw [Bool.eq_false_iff, ne_eq, hstepClasses.hasVariants_iff]
    rintro ⟨d, hne, hfold⟩
    simp only [step] at hfold
    grind
  · rw [Bool.eq_false_iff, ne_eq, htakesA.1]
    decide
  · rw [Bool.eq_false_iff, ne_eq, htakesA.2 _ hb]
    decide

end Node

end LinearRegex
