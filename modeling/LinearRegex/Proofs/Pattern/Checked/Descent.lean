import LinearRegex.Proofs.Pattern.Checked.Reader
import LinearRegex.Proofs.Pattern.Faults
import LinearRegex.Regex.Basic

/-!
# The descent has the reader's result

Pieces, branches and alternations are read by descent as they are by the reader. The descent counts
the bars and the branches where the reader remembers which bar is to be blamed, and both come to the
same bar.

Main statements: `alternation_follows` for one alternation, `parse_eq` and `parse_checked` for whole
patterns.
-/

namespace LinearRegex.Pattern

open Source

variable {s t u : Source} {r r' r₁ : Reader} {o n : Nat}

namespace Checked

variable {inner : State → Reading (Node × State)}

/-! ## Branches -/

/-- No quantifier comes next if there is a piece that it could repeat. -/
def Ready (r : Reader) (s : Source) : Prop :=
  r.branches.repeatable = true → ∀ c ∈ s.rest.head?, beginsQuantifier c = false

/-- **Pieces** are read as they are by the reader. -/
theorem piece_follows (hinner : r.groups.length < deepestNesting →
      Descends inner (r.groups.length + 1)) {c : Char} {cs : List Char} (hclosing : c ≠ ')')
    (hbar : c ≠ '|') (hready : Ready r ⟨o, c :: cs⟩) :
    Follows r ⟨o, c :: cs⟩ (Taken r ⟨o, c :: cs⟩) (piece inner c (stateAt r ⟨o, c :: cs⟩)) := by
  unfold piece
  by_cases hopen : c = '('
  · subst hopen
    rw [if_pos rfl]
    exact group_follows hinner o cs
  rw [if_neg hopen]
  have hatom := atom_single r.flags hopen hclosing hbar o cs
  unfold stateAt
  dsimp only
  generalize atom r.flags c ⟨o, c :: cs⟩ = x at hatom
  cases hatom with
  | fault hnext =>
    rw [sure_bind]
    exact .fault (Reader.complete_of_step_error hnext rfl)
  | @quantifier q t hnext hc =>
    have hrepeat : r.branches.repeatLast? q = none := by
      cases hrepeat : r.branches.repeatLast? q with
      | none => rfl
      | some b =>
        obtain ⟨hrepeatable, -⟩ := Branches.repeatLast?_eq_some hrepeat
        have := hready hrepeatable c rfl
        rw [hc c rfl] at this
        simp at this
    refine .fault (Reader.complete_of_step_error hnext ?_)
    unfold Reader.step
    dsimp only
    rw [hrepeat]
  | @piece token n t hnext hn =>
    rw [pure_bind]
    have hadvances : Advances r ⟨o, c :: cs⟩ (r.push n) t :=
      Advances.of_step hnext (Reader.step_of_piece hn o)
    show Follows _ _ _ (pure (some n, stateAt (r.push n) t))
    exact .result hadvances ⟨rfl, Lexeme.next?_length hnext⟩

/-- A branch of an alternation, between the same bars, has been begun. -/
structure Begun (b b' : Branches) : Prop where
  started : b'.started = true
  complete : b'.complete = b.complete
  lastBar : b'.lastBar = b.lastBar
  emptyAt : b'.emptyAt = b.emptyAt

theorem Begun.trans {b b' b'' : Branches} (h : Begun b b') (h' : Begun b' b'') : Begun b b'' :=
  ⟨h'.started, h'.complete.trans h.complete, h'.lastBar.trans h.lastBar,
    h'.emptyAt.trans h.emptyAt⟩

/-- The rest of a branch has been read, which may be nothing. -/
structure Rowed (r : Reader) (s : Source) (branch : Node) (r' : Reader) (s' : Source) : Prop where
  branch : branch = .sequence r'.branches.pieces.reverse
  begun : Begun r.branches r'.branches ∧ s'.rest.length < s.rest.length ∨ r' = r ∧ s' = s
  ends : ∀ c ∈ s'.rest.head?, c = ')' ∨ c = '|'

theorem Rowed.of_begun {branch : Node} (h : Rowed r₁ t branch r' u)
    (hbegun : Begun r.branches r₁.branches) (hlength : t.rest.length < s.rest.length) :
    Rowed r s branch r' u := by
  refine ⟨h.branch, .inl ?_, h.ends⟩
  rcases h.begun with ⟨hbegun', hlength'⟩ | ⟨rfl, rfl⟩
  · exact ⟨hbegun.trans hbegun', Nat.lt_trans hlength' hlength⟩
  · exact ⟨hbegun, hlength⟩

/-- **The rest of a branch** is read as it is by the reader. -/
theorem row_follows {depth : Nat}
    (hinner : depth < deepestNesting → Descends inner (depth + 1))
    (hdepth : r.groups.length = depth) (hlength : s.rest.length < n) (hready : Ready r s) :
    Follows r s (Rowed r s) (row inner n r.branches.pieces (stateAt r s)) := by
  induction n generalizing r s with
  | zero => omega
  | succ n ih =>
    have hdone : (∀ c ∈ s.rest.head?, c = ')' ∨ c = '|') → Follows r s (Rowed r s)
        (pure (.sequence r.branches.pieces.reverse, stateAt r s)) :=
      fun hends => .result (.refl r s) ⟨rfl, .inr ⟨rfl, rfl⟩, hends⟩
    rw [row]
    obtain ⟨o, cs⟩ := s
    cases cs with
    | nil => exact hdone (by simp)
    | cons c cs =>
      change Follows _ _ _ (if c = ')' ∨ c = '|' then _ else _)
      by_cases hends : c = ')' ∨ c = '|'
      · rw [if_pos hends]
        exact hdone fun d hd => Option.some.inj hd ▸ hends
      rw [if_neg hends]
      obtain ⟨hclosing, hbar⟩ := not_or.mp hends
      -- Behind a piece, with a quantifier or without, the rest is shorter: the induction applies.
      have hrest : ∀ r₂ t, r₂.groups.length = depth → t.rest.length < (c :: cs).length →
          Begun r.branches r₂.branches → Ready r₂ t →
          Follows r₂ t (Rowed r ⟨o, c :: cs⟩) (row inner n r₂.branches.pieces (stateAt r₂ t)) := by
        intro r₂ t hdepth₂ hlength₂ hbegun hready₂
        have hlt := Nat.lt_of_lt_of_le hlength₂ (Nat.le_of_lt_succ hlength)
        exact (ih hdepth₂ hlt hready₂).mono fun _ _ _ h => h.of_begun hbegun hlength₂
      refine (piece_follows (hdepth ▸ hinner) hclosing hbar hready).bind ?_
      intro piece r₁ s₁ hadvances htaken
      obtain ⟨hbranches, hlength₁⟩ := htaken
      have hdepth₁ : r₁.groups.length = depth := by rw [hadvances.groups, hdepth]
      obtain ⟨flags, names, groups, branches⟩ := r₁
      cases piece with
      | none =>
        obtain rfl : branches = r.branches.touch := hbranches
        exact hrest ⟨flags, names, groups, r.branches.touch⟩ s₁ hdepth₁ hlength₁
          ⟨rfl, rfl, rfl, rfl⟩ (fun h => by simp [Branches.touch] at h)
      | some piece =>
        obtain rfl : branches = r.branches.push piece := hbranches
        have hquantified := quantified s₁
        change Follows _ _ _ (quantifier s₁ >>= _)
        generalize quantifier s₁ = x at hquantified
        cases hquantified with
        | none hnone =>
          rw [pure_bind]
          exact hrest ⟨flags, names, groups, r.branches.push piece⟩ s₁ hdepth₁ hlength₁
            ⟨rfl, rfl, rfl, rfl⟩ (fun _ => hnone)
        | fault hnext =>
          rw [sure_bind]
          exact .fault (Reader.complete_of_step_error hnext rfl)
        | @some q t hnext =>
          rw [pure_bind]
          let looped : Branches :=
            { r.branches.push piece with
              pieces := .loop piece q :: r.branches.pieces
              repeatable := false }
          have hloop : Advances ⟨flags, names, groups, r.branches.push piece⟩ s₁
              ⟨flags, names, groups, looped⟩ t := Advances.of_step hnext rfl
          refine (hrest ⟨flags, names, groups, looped⟩ t hdepth₁ ?_ ⟨rfl, rfl, rfl, rfl⟩
            (fun h => by simp [looped] at h)).of_advances hloop
          exact Nat.lt_trans (Lexeme.next?_length hnext) hlength₁

/-! ## Alternations -/

/-- The number of the first branch that is empty, if there is one, when another has been read. -/
def noteEmpty (empty : Option Nat) (read : List Node) (started : Bool) : Option Nat :=
  if empty.isNone && !started then some read.length else empty

/-- An alternation as it is kept by the descent: the branches before this one, the first of them
that is empty, and all bars. -/
structure Keeps (b : Branches) (read : List Node) (empty : Option Nat) (bars : Array Nat) :
    Prop where
  complete : b.complete = read
  lastBar : b.lastBar = bars.back?
  emptyAt : b.emptyAt = empty.bind fun i => bars[i - 1]?
  length : read.length = bars.size
  lt : ∀ i ∈ empty, i < bars.size

namespace Keeps

variable {b b' : Branches} {read : List Node} {empty : Option Nat} {bars : Array Nat}

theorem of_begun (h : Keeps b read empty bars) (hbegun : Begun b b') : Keeps b' read empty bars :=
  ⟨hbegun.complete.trans h.complete, hbegun.lastBar.trans h.lastBar,
    hbegun.emptyAt.trans h.emptyAt, h.length, h.lt⟩

/-- The number of an empty branch is at most that of the bars so far. -/
theorem le_of_noteEmpty (h : Keeps b read empty bars) {started : Bool} {i : Nat}
    (hi : noteEmpty empty read started = some i) : i ≤ bars.size := by
  unfold noteEmpty at hi
  split at hi
  · obtain rfl := Option.some.inj hi
    exact Nat.le_of_eq h.length
  · exact Nat.le_of_lt (h.lt i hi)

/-- At the end of an alternation, the bar before the first empty branch is blamed. -/
theorem blamed_eq (h : Keeps b read empty bars) :
    b.emptyAt.or (if b.started then none else b.lastBar) =
      (noteEmpty empty read b.started).bind fun i => bars[i - 1]? := by
  obtain ⟨-, hlast, hempty, hlength, hlt⟩ := h
  rw [hempty, hlast]
  cases empty with
  | none =>
    cases b.started with
    | true => rfl
    | false =>
      show bars.back? = bars[read.length - 1]?
      rw [hlength]
      rfl
  | some i =>
    have hi := hlt i rfl
    show bars[i - 1]?.or _ = bars[i - 1]?
    rw [Array.getElem?_eq_getElem (by omega)]
    rfl

/-- **The bar that is blamed** is found by the number of the first branch that is empty. -/
theorem finish (h : Keeps b read empty bars) :
    (∃ i offset, noteEmpty empty read b.started = some i ∧ bars.isEmpty = false ∧
      bars[i - 1]? = some offset ∧ b.finish = .error ⟨.emptyBranch, offset⟩) ∨
    (noteEmpty empty read b.started = none ∨ bars.isEmpty = true) ∧
      b.finish = .ok (.choice (.sequence b.pieces.reverse :: read).reverse) := by
  have hnodes : b.nodes = (.sequence b.pieces.reverse :: read).reverse := by
    unfold Branches.nodes
    rw [h.complete]
  unfold Branches.finish
  rw [h.blamed_eq, hnodes]
  cases hnoted : noteEmpty empty read b.started with
  | none => exact .inr ⟨.inl rfl, rfl⟩
  | some i =>
    have hi := h.le_of_noteEmpty hnoted
    rw [Option.bind_some]
    cases hbars : bars.isEmpty with
    | true =>
      obtain rfl := Array.isEmpty_iff.mp hbars
      exact .inr ⟨.inr rfl, rfl⟩
    | false =>
      have hsize : bars.size ≠ 0 := by
        simpa using hbars
      have hbar : bars[i - 1]? = some bars[i - 1] := Array.getElem?_eq_getElem (by omega)
      rw [hbar]
      exact .inl ⟨i, _, rfl, rfl, hbar, rfl⟩

/-- **A bar** ends the branch before it. -/
theorem bar (h : Keeps b read empty bars) (offset : Nat) :
    Keeps (b.bar offset) (.sequence b.pieces.reverse :: read) (noteEmpty empty read b.started)
      (bars.push offset) := by
  refine ⟨?_, (Array.back?_push).symm, ?_, ?_, ?_⟩
  · exact congrArg _ h.complete
  · show b.emptyAt.or (if b.started then none else some (b.lastBar.getD offset)) = _
    rw [h.emptyAt, h.lastBar]
    cases empty with
    | none =>
      cases b.started with
      | true => rfl
      | false =>
        show some (bars.back?.getD offset) = (bars.push offset)[read.length - 1]?
        rw [h.length]
        rcases Nat.eq_zero_or_pos bars.size with hzero | hpos
        · obtain rfl := Array.eq_empty_of_size_eq_zero hzero
          rfl
        · have hlt : bars.size - 1 < bars.size := by omega
          rw [Array.getElem?_push_lt hlt, Array.back?_eq_getElem?, Array.getElem?_eq_getElem hlt]
          rfl
    | some i =>
      have hlt : i - 1 < bars.size := by
        have := h.lt i rfl
        omega
      show bars[i - 1]?.or _ = (bars.push offset)[i - 1]?
      rw [Array.getElem?_push_lt hlt, Array.getElem?_eq_getElem hlt]
      rfl
  · rw [List.length_cons, Array.size_push, h.length]
  · intro i hi
    rw [Array.size_push]
    exact Nat.lt_succ_of_le (h.le_of_noteEmpty hi)

end Keeps

/-- **The rest of an alternation** is read as it is by the reader. -/
theorem branches_follows {depth : Nat}
    (hinner : depth < deepestNesting → Descends inner (depth + 1)) {read : List Node}
    {empty : Option Nat} {bars : Array Nat} (hdepth : r.groups.length = depth)
    (hlength : s.rest.length < n) (hkeeps : Keeps r.branches read empty bars)
    (hpieces : r.branches.pieces = []) (hstarted : r.branches.started = false)
    (hrepeatable : r.branches.repeatable = false) :
    Follows r s Ended (branches inner n read empty bars (stateAt r s)) := by
  induction n generalizing r s read empty bars with
  | zero => omega
  | succ n ih =>
    have hrow := row_follows hinner hdepth (lt_rounds s) (fun h => by simp [hrepeatable] at h)
    rw [hpieces] at hrow
    rw [branches]
    refine hrow.bind ?_
    intro branch r' s' hadvances hrowed
    obtain ⟨rfl, hbegun, hends⟩ := hrowed
    have hkeeps' : Keeps r'.branches read empty bars := by
      rcases hbegun with ⟨hbegun, -⟩ | ⟨rfl, -⟩
      · exact hkeeps.of_begun hbegun
      · exact hkeeps
    -- A branch is empty if nothing has been read for it.
    have hnoted : (if empty.isNone && s'.offset == s.offset then some read.length else empty) =
        noteEmpty empty read r'.branches.started := by
      have hoffset : (s'.offset == s.offset) = !r'.branches.started := by
        rcases hbegun with ⟨hbegun, hlt⟩ | ⟨rfl, rfl⟩
        · have hoffset := hadvances.reaches.offset_lt hlt
          rw [hbegun.started]
          simpa using Nat.ne_of_gt hoffset
        · rw [hstarted]
          simp
      unfold noteEmpty
      rw [hoffset]
    unfold stateAt
    dsimp only
    rw [hnoted]
    rcases accept_eq_or s' '|' with ⟨t, ht, heq⟩ | ⟨hnone, heq⟩
    · rw [heq]
      have hnext := Lexeme.next?_single (show Token.single? '|' = some .bar from rfl) ht
      have hbar : Advances r' s' { r' with branches := r'.branches.bar s'.offset } t :=
        Advances.of_step hnext rfl
      refine (ih (r := { r' with branches := r'.branches.bar s'.offset }) ?_ ?_
        (hkeeps'.bar s'.offset) rfl rfl rfl).of_advances hbar
      · rw [← hdepth]
        exact congrArg List.length hadvances.groups
      · have hreached := hadvances.reaches.length_le
        have hless := Lexeme.next?_length hnext
        show t.rest.length < n
        omega
    · rw [heq]
      have hclosing : ∀ c ∈ s'.rest.head?, c = ')' := by
        intro c hc
        exact (hends c hc).resolve_right (ne_of_skip?_eq_none hnone c hc)
      rcases hkeeps'.finish with ⟨i, offset, hnoted, hbars, hget, hfinish⟩ | ⟨hnoted, hfinish⟩
      · rw [hnoted, hbars]
        dsimp only
        rw [hget]
        exact .fault (Reader.complete_of_finish_error hfinish hclosing)
      · have hresult : Follows r' s' Ended (pure
            (.choice (.sequence r'.branches.pieces.reverse :: read).reverse, stateAt r' s')) :=
          .result (.refl r' s') ⟨hfinish, hclosing⟩
        rcases hnoted with hnoted | hbars
        · rw [hnoted]
          exact hresult
        · rw [hbars]
          cases noteEmpty empty read r'.branches.started <;> exact hresult

/-- **An alternation** is read as it is by the reader, if not too many groups are open for the
levels that are left. -/
theorem alternation_follows (levels : Nat)
    (hlevels : r.groups.length + levels = deepestNesting + 1) (hpos : 0 < levels)
    (hbranches : r.branches = {}) (s : Source) :
    Follows r s Ended (alternation levels (stateAt r s)) := by
  induction levels generalizing r s with
  | zero => omega
  | succ n ih =>
    rw [alternation]
    have hkeeps : Keeps r.branches [] none #[] := by
      rw [hbranches]
      exact ⟨rfl, rfl, rfl, rfl, by simp⟩
    refine branches_follows ?_ rfl (lt_rounds s) hkeeps ?_ ?_ ?_
    · intro hdepth r' s' hbranches' hdepth'
      exact ih (by omega) (by omega) hbranches' s'
    · rw [hbranches]
    · rw [hbranches]
    · rw [hbranches]

/-! ## Whole patterns -/

/-- **To read with everything checked is to read by lexemes.** -/
theorem parse_eq (source : String) (flags : Flags) :
    parse source flags = sure (Pattern.parse source flags) := by
  have hparse : Pattern.parse source flags =
      ({ flags } : Reader).complete (.ofString source) := rfl
  have halternation := alternation_follows (r := { flags }) (deepestNesting + 1) (Nat.zero_add _)
    (Nat.succ_pos _) rfl (.ofString source)
  unfold parse
  change alternation (deepestNesting + 1) (stateAt { flags } (.ofString source)) >>= _ = _
  generalize alternation (deepestNesting + 1) (stateAt { flags } (.ofString source)) = x
    at halternation
  rw [hparse]
  cases halternation with
  | fault he =>
    rw [sure_bind, he]
  | @result node r s h hended =>
    obtain ⟨hcomplete, hgroups, -, -⟩ := h
    obtain ⟨hfinish, hend⟩ := hended
    rw [pure_bind, hcomplete]
    obtain ⟨flags', names, groups, branches⟩ := r
    obtain rfl : groups = [] := hgroups
    obtain ⟨o, cs⟩ := s
    cases cs with
    | nil =>
      rw [Reader.complete_nil]
      unfold Reader.finish
      rw [hfinish]
      rfl
    | cons c cs =>
      obtain rfl := hend c rfl
      have hstep : Reader.step ⟨flags', names, [], branches⟩ ⟨o, .ok .closing⟩ =
          .error ⟨.unbalancedParenthesis, o⟩ := by
        change Reader.closing _ o = _
        unfold Reader.closing
        rw [hfinish]
      rw [Reader.complete_of_step_error (Lexeme.next?_closing o cs) hstep]
      rfl

end Checked

/-- **Every pattern is read, or refused with a place.** Reading with everything checked always has a
result, so nothing that is taken for granted fails: characters that are taken come next, loops and
the descent end in time, the values of digits fit, and whatever is looked up by its number is found.
The result is that of reading by lexemes: a pattern, or an error. An error is one of the pattern,
also when it is to be compiled, and its offset is there, is not beyond the end of the pattern and
lies between two characters. -/
theorem parse_checked (source : String) (flags : Flags) :
    Checked.parse source flags = Checked.sure (parse source flags) ∧
    ((∃ pattern, parse source flags = .ok pattern) ∨
      ∃ e o, parse source flags = .error e ∧
        (∀ sizeLimit, Regex.build source ⟨flags, sizeLimit⟩ = .error (.pattern e)) ∧
        (Error.pattern e).offset? = some o ∧ o ≤ source.utf8ByteSize ∧
        (⟨o⟩ : String.Pos.Raw).IsValid source) := by
  refine ⟨Checked.parse_eq source flags, ?_⟩
  cases hparse : parse source flags with
  | ok pattern => exact .inl ⟨pattern, rfl⟩
  | error e =>
    have hvalid := hasPlace_ofString_iff.mp (hasPlace_of_parse_error hparse)
    refine .inr ⟨e, e.offset, rfl, fun sizeLimit => ?_, rfl, hvalid.le_rawEndPos, hvalid⟩
    unfold Regex.build
    rw [hparse]

end LinearRegex.Pattern
