import LinearRegex.Proofs.Pattern.Places
import LinearRegex.Proofs.Pattern.Steps

/-!
# Where patterns are at fault

What is wrong with a pattern is blamed on a place of it. The reader keeps the places that may be
blamed later on: of the parentheses that are open, and of the bars next to an empty branch.

Main statements: `Reader.placed_step` for one lexeme, and `hasPlace_of_parse_error`.
-/

namespace LinearRegex.Pattern

variable {s : Source}

/-- An alternation whose bars are at places of a text. -/
structure Branches.Placed (s : Source) (b : Branches) : Prop where
  lastBar : ∀ o, b.lastBar = some o → s.HasPlace o
  emptyAt : ∀ o, b.emptyAt = some o → s.HasPlace o

namespace Branches.Placed

variable {b b' : Branches}

theorem init (s : Source) : ({} : Branches).Placed s := ⟨by simp, by simp⟩

theorem repeatLast (h : b.Placed s) {q : Quantifier} (heq : b.repeatLast? q = some b') :
    b'.Placed s := by
  obtain ⟨-, n, ns, -, rfl⟩ := repeatLast?_eq_some heq
  exact ⟨h.lastBar, h.emptyAt⟩

/-- The bar to blame for an empty branch is the one before it, or else the one behind it. -/
theorem bar (h : b.Placed s) {offset : Nat} (ho : s.HasPlace offset) : (b.bar offset).Placed s := by
  constructor
  · intro o heq
    exact Option.some.inj heq ▸ ho
  · intro o heq
    rcases Option.or_eq_some_iff.mp heq with hempty | ⟨-, hempty⟩
    · exact h.emptyAt o hempty
    · split at hempty
      · simp at hempty
      · obtain rfl := Option.some.inj hempty
        cases hlast : b.lastBar with
        | none => exact ho
        | some o => exact h.lastBar o hlast

theorem finish (h : b.Placed s) {e : PatternError} (heq : b.finish = .error e) :
    s.HasPlace e.offset := by
  unfold Branches.finish at heq
  split at heq
  · next o ho =>
    obtain rfl := Except.error.inj heq
    rcases Option.or_eq_some_iff.mp ho with hempty | ⟨-, hlast⟩
    · exact h.emptyAt o hempty
    · split at hlast
      · simp at hlast
      · exact h.lastBar o hlast
  · simp at heq

end Branches.Placed

/-- A state of the reader in which all that may be blamed later on is at places of a text. -/
structure Reader.Placed (s : Source) (r : Reader) : Prop where
  branches : r.branches.Placed s
  groups : ∀ g ∈ r.groups, s.HasPlace g.offset ∧ g.around.Placed s

namespace Reader

variable {r r' : Reader} {lx : Lexeme} {lxs : List Lexeme} {e : PatternError} {o : Nat}

namespace Placed

theorem init (s : Source) (flags : Flags) : ({ flags } : Reader).Placed s := ⟨.init s, by simp⟩

theorem opened (h : r.Placed s) {g : OpenGroup} (ho : s.HasPlace g.offset)
    (haround : g.around = r.branches) : ∀ x ∈ g :: r.groups, s.HasPlace x.offset ∧
      x.around.Placed s :=
  List.forall_mem_cons.mpr ⟨⟨ho, haround ▸ h.branches⟩, h.groups⟩

theorem opening (h : r.Placed s) (ho : s.HasPlace o) {head : GroupHead}
    (heq : r.opening o head = .ok r') : r'.Placed s := by
  cases opened_of_opening heq with
  | changed _ heq =>
    subst heq
    exact ⟨⟨h.branches.lastBar, h.branches.emptyAt⟩, h.groups⟩
  | grouped _ heq =>
    subst heq
    exact ⟨.init s, h.opened ho rfl⟩
  | captured _ _ heq =>
    subst heq
    exact ⟨.init s, h.opened ho rfl⟩

theorem closing (h : r.Placed s) (heq : r.closing o = .ok r') : r'.Placed s := by
  obtain ⟨body, g, groups, -, hgroups, rfl⟩ := closing_eq_ok heq
  have hall := h.groups
  rw [hgroups] at hall
  obtain ⟨⟨-, haround⟩, hgroups⟩ := List.forall_mem_cons.mp hall
  exact ⟨⟨haround.lastBar, haround.emptyAt⟩, hgroups⟩

end Placed

/-- A lexeme at a place keeps the reader in order. -/
theorem placed_step (h : r.Placed s) (hlx : lx.Placed s) (heq : r.step lx = .ok r') :
    r'.Placed s := by
  cases stepped_of_step heq with
  | piece _ _ heq =>
    subst heq
    exact ⟨⟨h.branches.lastBar, h.branches.emptyAt⟩, h.groups⟩
  | repeated _ hbranches heq =>
    subst heq
    exact ⟨h.branches.repeatLast hbranches, h.groups⟩
  | opened _ _ heq => exact h.opening hlx.offset heq
  | closed _ heq => exact h.closing heq
  | barred _ heq =>
    subst heq
    exact ⟨h.branches.bar hlx.offset, h.groups⟩

theorem hasPlace_of_openCapture_error {name : Option String} (ho : s.HasPlace o)
    (heq : r.openCapture o name = .error e) : s.HasPlace e.offset := by
  unfold openCapture at heq
  split at heq
  · exact Except.error.inj heq ▸ ho
  · simp at heq

theorem hasPlace_of_opening_error (ho : s.HasPlace o) {head : GroupHead} (hhead : head.Placed s)
    (heq : r.opening o head = .error e) : s.HasPlace e.offset := by
  cases head with
  | capture => exact hasPlace_of_openCapture_error ho heq
  | named name nameOffset =>
    unfold opening at heq
    dsimp only at heq
    split at heq
    · exact Except.error.inj heq ▸ hhead
    · exact hasPlace_of_openCapture_error ho heq
  | _ => simp [opening] at heq

theorem hasPlace_of_closing_error (h : r.Placed s) (ho : s.HasPlace o)
    (heq : r.closing o = .error e) : s.HasPlace e.offset := by
  unfold closing at heq
  split at heq
  · next e' he =>
    obtain rfl := Except.error.inj heq
    exact h.branches.finish he
  · split at heq
    · exact Except.error.inj heq ▸ ho
    · simp at heq

/-- **What is wrong with a lexeme**, in itself or where it stands, is blamed on a place. -/
theorem hasPlace_of_step_error (h : r.Placed s) (hlx : lx.Placed s)
    (heq : r.step lx = .error e) : s.HasPlace e.offset := by
  unfold step at heq
  split at heq
  · next htoken => exact Except.error.inj heq ▸ hlx.error _ htoken
  · next token htoken =>
    have hplaced := hlx.token token htoken
    cases token with
    | quantifier q =>
      dsimp only at heq
      split at heq
      · simp at heq
      · exact Except.error.inj heq ▸ hlx.offset
    | opening head =>
      dsimp only at heq
      split at heq
      · exact Except.error.inj heq ▸ hlx.offset
      · cases head with
        | error e' => exact Except.error.inj heq ▸ hplaced
        | ok head => exact hasPlace_of_opening_error hlx.offset hplaced heq
    | closing => exact hasPlace_of_closing_error h hlx.offset heq
    | _ => simp at heq

theorem hasPlace_of_foldlM_error (h : r.Placed s) (hlxs : ∀ lx ∈ lxs, lx.Placed s)
    (heq : lxs.foldlM step r = .error e) : s.HasPlace e.offset := by
  induction lxs generalizing r with
  | nil => simp [pure, Except.pure] at heq
  | cons lx lxs ih =>
    obtain ⟨hlx, hlxs⟩ := List.forall_mem_cons.mp hlxs
    rw [List.foldlM_cons] at heq
    cases hstep : r.step lx with
    | error e' =>
      rw [hstep] at heq
      obtain rfl := Except.error.inj heq
      exact hasPlace_of_step_error h hlx hstep
    | ok r₁ =>
      rw [hstep] at heq
      exact ih (placed_step h hlx hstep) hlxs heq

theorem hasPlace_of_finish_error (h : r.Placed s) (heq : r.finish = .error e) :
    s.HasPlace e.offset := by
  unfold finish at heq
  split at heq
  · next e' he =>
    obtain rfl := Except.error.inj heq
    exact h.branches.finish he
  · split at heq
    · simp at heq
    · next g groups hgroups =>
      have hg := h.groups g (by rw [hgroups]; exact List.mem_cons_self)
      exact Except.error.inj heq ▸ hg.1

end Reader

/-- **What is wrong with a pattern is blamed on a place of it.** -/
theorem hasPlace_of_parse_error {source : String} {flags : Flags} {e : PatternError}
    (h : parse source flags = .error e) : (Source.ofString source).HasPlace e.offset := by
  have hplaced := Lexeme.placed_of_mem_all (.ofString source)
  have hinit := Reader.Placed.init (.ofString source) flags
  unfold parse at h
  rw [Reader.run_eq_foldlM] at h
  split at h
  · next e' he =>
    obtain rfl := Except.error.inj h
    exact Reader.hasPlace_of_foldlM_error hinit hplaced he
  · next r hr =>
    refine Reader.hasPlace_of_finish_error ?_ h
    refine Reader.foldlM_preserves (fun lx hlx r r' h hstep => ?_) hinit hr
    exact Reader.placed_step h (hplaced lx hlx) hstep

end LinearRegex.Pattern
