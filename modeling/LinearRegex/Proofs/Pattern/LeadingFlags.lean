import LinearRegex.Proofs.Pattern.Grouping
import LinearRegex.Proofs.Pattern.Shifted

/-!
# Flags in front of a pattern

A flag group in front of a pattern does what the flags do that a pattern is read under: the pattern
is read to the same piece, and what is wrong with it is wrong so many bytes further on. There is one
difference. The flag group counts as something that has been read of the first branch, so a bar
right behind it is no fault, whereas no pattern that begins with a bar is accepted.

The reader behind the flag group is therefore the one without it, but for the offsets and for the
first branch of the whole pattern, which counts as begun.

Main statements: `Reader.step_led` for one lexeme, and `parse_leading_flags`.
-/

namespace LinearRegex

namespace Pattern

/-! ## Behind a flag group -/

/-- An alternation so many bytes further on. If it is the one that a flag group leads, its first
branch counts as begun. -/
def Branches.led (d : Nat) (outermost : Bool) (b : Branches) : Branches :=
  { b with
    started := b.started || outermost && b.lastBar.isNone
    lastBar := b.lastBar.map (· + d)
    emptyAt := b.emptyAt.map (· + d) }

/-- Open groups so many bytes further on, behind a flag group. -/
def ledGroups (d : Nat) : List OpenGroup → List OpenGroup
  | [] => []
  | g :: groups =>
    { g with offset := g.offset + d, around := g.around.led d groups.isEmpty } ::
      ledGroups d groups

/-- A reader so many bytes further on, behind a flag group. -/
def Reader.led (d : Nat) (r : Reader) : Reader :=
  { r with groups := ledGroups d r.groups, branches := r.branches.led d r.groups.isEmpty }

theorem length_ledGroups (d : Nat) (groups : List OpenGroup) :
    (ledGroups d groups).length = groups.length := by
  induction groups with
  | nil => rfl
  | cons g groups ih => rw [ledGroups, List.length_cons, ih, List.length_cons]

namespace Branches

variable {b : Branches} {d : Nat} {outermost : Bool}

theorem repeatLast?_led (b : Branches) (q : Quantifier) (d : Nat) (outermost : Bool) :
    (b.led d outermost).repeatLast? q = (b.repeatLast? q).map (led d outermost) := by
  obtain ⟨complete, pieces, started, repeatable, lastBar, emptyAt⟩ := b
  cases repeatable <;> cases pieces <;> rfl

/-- Only for the first branch it matters whether the flag group counts. -/
theorem bar_led (h : outermost = true → b.started = true ∨ b.lastBar.isSome = true) (o : Nat) :
    (b.led d outermost).bar (o + d) = (b.bar o).led d outermost := by
  obtain ⟨complete, pieces, started, repeatable, lastBar, emptyAt⟩ := b
  have hstarted : (started || outermost && lastBar.isNone) = started := by
    cases started with
    | true => rfl
    | false =>
      cases lastBar with
      | some bar => simp
      | none =>
        cases outermost with
        | false => rfl
        | true => simp at h
  unfold led bar
  dsimp only
  rw [hstarted]
  congr 1
  · simp
  · cases emptyAt <;> cases started <;> cases lastBar <;> rfl

theorem finish_led (b : Branches) (d : Nat) (outermost : Bool) :
    (b.led d outermost).finish = b.finish.mapError (.shifted d) := by
  obtain ⟨complete, pieces, started, repeatable, lastBar, emptyAt⟩ := b
  cases emptyAt <;> cases started <;> cases lastBar <;> cases outermost <;> rfl

end Branches

namespace Reader

variable {r r' : Reader} {lx : Lexeme} {lxs : List Lexeme} {d o : Nat}

/-- A result of the reader so many bytes further on, behind a flag group. -/
def resultLed (d : Nat) (result : Except PatternError Reader) : Except PatternError Reader :=
  (result.map (led d)).mapError (.shifted d)

theorem openCapture_led (r : Reader) (o d : Nat) (name : Option String) :
    (r.led d).openCapture (o + d) name = resultLed d (r.openCapture o name) := by
  unfold openCapture
  rw [show (r.led d).names = r.names from rfl]
  split <;> rfl

theorem opening_led (r : Reader) (o d : Nat) (head : GroupHead) :
    (r.led d).opening (o + d) (head.moved d) = resultLed d (r.opening o head) := by
  cases head with
  | capture => exact openCapture_led r o d none
  | named name offset =>
    unfold GroupHead.moved opening
    dsimp only
    rw [show (r.led d).names = r.names from rfl]
    split
    · rfl
    · exact openCapture_led r o d (some name)
  | _ => rfl

theorem closing_led (r : Reader) (o d : Nat) :
    (r.led d).closing (o + d) = resultLed d (r.closing o) := by
  have hfinish : (r.led d).branches.finish = r.branches.finish.mapError (.shifted d) :=
    Branches.finish_led _ _ _
  unfold closing
  rw [hfinish]
  cases r.branches.finish with
  | error e => rfl
  | ok body =>
    obtain ⟨flags, names, groups, branches⟩ := r
    cases groups <;> rfl

/-- Something has been read of the first branch of the whole pattern, unless a group is open. -/
def Begun (r : Reader) : Prop :=
  r.groups = [] → r.branches.started = true ∨ r.branches.lastBar.isSome = true

/-- **A lexeme does the same behind a flag group**, if it is not a bar that ends an empty first
branch. -/
theorem step_led (h : r.Begun ∨ lx.token ≠ .ok .bar) (d : Nat) :
    (r.led d).step (lx.shifted d) = resultLed d (r.step lx) := by
  obtain ⟨o, token⟩ := lx
  cases token with
  | error e => rfl
  | ok token =>
    cases token with
    | quantifier q =>
      have hrepeat : (r.led d).branches.repeatLast? q =
          (r.branches.repeatLast? q).map (.led d r.groups.isEmpty) :=
        Branches.repeatLast?_led _ _ _ _
      unfold Lexeme.shifted step
      dsimp only [Token.shifted, Token.moved]
      rw [hrepeat]
      cases r.branches.repeatLast? q <;> rfl
    | opening head =>
      have hlength : (r.led d).groups.length = r.groups.length := length_ledGroups d r.groups
      unfold Lexeme.shifted step
      cases head with
      | error e =>
        dsimp only [Token.shifted]
        rw [hlength]
        split <;> rfl
      | ok head =>
        dsimp only [Token.shifted, Token.moved]
        rw [hlength]
        split
        · rfl
        · exact opening_led r o d head
    | closing => exact closing_led r o d
    | bar =>
      have hbegun : r.groups.isEmpty = true →
          r.branches.started = true ∨ r.branches.lastBar.isSome = true := by
        intro hempty
        exact (h.resolve_right fun hne => hne rfl) (List.isEmpty_iff.mp hempty)
      have hbar : (r.led d).branches.bar (o + d) = (r.branches.bar o).led d r.groups.isEmpty :=
        Branches.bar_led hbegun o
      unfold Lexeme.shifted step
      dsimp only [Token.shifted, Token.moved]
      rw [hbar]
      rfl
    | _ => rfl

/-- Something has been read behind a lexeme, if there was before or if the lexeme is the first. -/
theorem begun_step (h : r.Begun ∨ r.branches.repeatable = false ∧ lx.token ≠ .ok .bar)
    (hstep : r.step lx = .ok r') : r'.Begun := by
  intro hgroups
  cases stepped_of_step hstep with
  | piece _ _ hr =>
    subst hr
    exact Or.inl rfl
  | barred _ hr =>
    subst hr
    exact Or.inr rfl
  | closed _ hr =>
    obtain ⟨body, g, groups, -, -, rfl⟩ := closing_eq_ok hr
    exact Or.inl rfl
  | repeated _ hbranches hr =>
    subst hr
    obtain ⟨hrepeatable, n, ns, -, rfl⟩ := Branches.repeatLast?_eq_some hbranches
    exact h.resolve_right (fun hfirst => by simp [hfirst.1] at hrepeatable) hgroups
  | opened _ _ hr =>
    cases opened_of_opening hr with
    | changed _ hr =>
      subst hr
      exact Or.inl rfl
    | grouped _ hr =>
      subst hr
      simp [openGroup] at hgroups
    | captured _ _ hr =>
      subst hr
      simp at hgroups

theorem foldlM_led (h : r.Begun) (d : Nat) (lxs : List Lexeme) :
    (lxs.map (.shifted d)).foldlM step (r.led d) = resultLed d (lxs.foldlM step r) := by
  induction lxs generalizing r with
  | nil => rfl
  | cons lx lxs ih =>
    rw [List.map_cons, List.foldlM_cons, List.foldlM_cons, step_led (Or.inl h)]
    cases hstep : r.step lx with
    | error e => rfl
    | ok r₁ => exact ih (begun_step (Or.inl h) hstep)

/-- What is read behind a flag group, if no bar is right behind it. -/
theorem foldlM_led_init (hbar : ∀ lx ∈ lxs.head?, lx.token ≠ .ok .bar) (flags : Flags) (d : Nat) :
    (lxs.map (.shifted d)).foldlM step { flags, branches := Branches.touch {} } =
      resultLed d (lxs.foldlM step { flags }) := by
  cases lxs with
  | nil => rfl
  | cons lx lxs =>
    have hlx : lx.token ≠ .ok .bar := hbar lx rfl
    have hled : ({ flags, branches := Branches.touch {} } : Reader) = ({ flags } : Reader).led d :=
      rfl
    rw [hled, List.map_cons, List.foldlM_cons, List.foldlM_cons, step_led (Or.inr hlx)]
    cases hstep : ({ flags } : Reader).step lx with
    | error e => rfl
    | ok r₁ => exact foldlM_led (begun_step (Or.inr ⟨rfl, hlx⟩) hstep) d lxs

theorem finish_led (r : Reader) (d : Nat) :
    (r.led d).finish = r.finish.mapError (.shifted d) := by
  have hfinish : (r.led d).branches.finish = r.branches.finish.mapError (.shifted d) :=
    Branches.finish_led _ _ _
  unfold finish
  rw [hfinish]
  cases r.branches.finish with
  | error e => rfl
  | ok node =>
    obtain ⟨flags, names, groups, branches⟩ := r
    cases groups <;> rfl

/-! ## A bar in front -/

/-- The alternation outside of all groups, by the one that is being read. -/
def outermost (b : Branches) : List OpenGroup → Branches
  | [] => b
  | g :: groups => outermost g.around groups

theorem emptyAt_outermost {b b' : Branches} (h : b'.emptyAt = b.emptyAt)
    (groups : List OpenGroup) : (outermost b' groups).emptyAt = (outermost b groups).emptyAt := by
  cases groups with
  | nil => exact h
  | cons g groups => rfl

/-- **A branch that is empty is never forgotten.** -/
theorem emptyAt_step {e : Nat} (h : (outermost r.branches r.groups).emptyAt = some e)
    (hstep : r.step lx = .ok r') : (outermost r'.branches r'.groups).emptyAt = some e := by
  cases stepped_of_step hstep with
  | piece _ _ hr =>
    subst hr
    refine (emptyAt_outermost ?_ r.groups).trans h
    rfl
  | repeated _ hbranches hr =>
    subst hr
    obtain ⟨-, n, ns, -, rfl⟩ := Branches.repeatLast?_eq_some hbranches
    refine (emptyAt_outermost ?_ r.groups).trans h
    rfl
  | barred _ hr =>
    subst hr
    dsimp only
    cases hgroups : r.groups with
    | nil =>
      rw [hgroups] at h
      have hempty : r.branches.emptyAt = some e := h
      unfold outermost Branches.bar
      rw [hempty]
      rfl
    | cons g groups =>
      rw [hgroups] at h
      exact h
  | closed _ hr =>
    obtain ⟨body, g, groups, -, hgroups, rfl⟩ := closing_eq_ok hr
    rw [hgroups] at h
    refine (emptyAt_outermost ?_ groups).trans h
    rfl
  | opened _ _ hr =>
    cases opened_of_opening hr with
    | changed _ hr =>
      subst hr
      refine (emptyAt_outermost ?_ r.groups).trans h
      rfl
    | grouped _ hr =>
      subst hr
      exact h
    | captured _ _ hr =>
      subst hr
      exact h

/-- Where a branch is empty, the end is a fault. -/
theorem finish_ne_ok_of_emptyAt {e : Nat} {pattern : Pattern}
    (h : (outermost r.branches r.groups).emptyAt = some e) : r.finish ≠ .ok pattern := by
  intro hfinish
  obtain ⟨hnode, hgroups, -⟩ := finish_eq_ok hfinish
  obtain ⟨hempty, -⟩ := Branches.finish_eq_ok hnode
  rw [hgroups] at h
  exact absurd (h.symm.trans hempty) (by simp)

end Reader

/-! ## The two lexemes in front -/

/-- A bar is written as one. -/
theorem eq_of_scan_bar {o : Nat} {c : Char} {s t : Source} (h : Token.scan o c s = .ok (.bar, t)) :
    c = '|' := by
  rcases scan_cases h with hsingle | ⟨q, hq⟩ | ⟨e, he⟩ | ⟨head, hhead, -⟩ | hpiece
  · unfold Token.single? at hsingle
    split at hsingle <;> first | rfl | simp at hsingle
  · simp at hq
  · simp at he
  · simp at hhead
  · simpa [pieceOf?] using hpiece {}

theorem head?_of_next?_bar {s t : Source} {o : Nat}
    (h : Lexeme.next? s = some (⟨o, .ok .bar⟩, t)) : s.rest.head? = some '|' := by
  obtain ⟨offset, rest⟩ := s
  cases rest with
  | nil => simp [Lexeme.next?, Source.next?] at h
  | cons c cs =>
    unfold Lexeme.next? at h
    dsimp only [Source.next?] at h
    split at h
    · simp at h
    · next token u hscan =>
      obtain ⟨hlx, -⟩ := Prod.mk.inj (Option.some.inj h)
      injection hlx with _ htoken
      obtain rfl := Except.ok.inj htoken
      rw [eq_of_scan_bar hscan]
      rfl

theorem head_ne_bar {s : Source} (h : s.rest.head? ≠ some '|') :
    ∀ lx ∈ (Lexeme.all s).head?, lx.token ≠ .ok .bar := by
  intro lx hlx htoken
  cases hnext : Lexeme.next? s with
  | none => simp [Lexeme.all_of_next?_eq_none hnext] at hlx
  | some next =>
    obtain ⟨⟨o, token⟩, t⟩ := next
    rw [Lexeme.all_of_next?_eq_some hnext] at hlx
    obtain rfl := Option.some.inj hlx
    obtain rfl : token = _ := htoken
    exact h (head?_of_next?_bar hnext)

/-- A pattern that begins with a bar is not accepted. -/
theorem exists_error_of_bar {p : String} (h : p.toList.head? = some '|') (flags : Flags) :
    ∃ e, parse p flags = .error e := by
  cases hparse : parse p flags with
  | error e => exact ⟨e, rfl⟩
  | ok pattern =>
    obtain ⟨r, hr, hfinish⟩ := exists_finish_of_parse hparse
    obtain ⟨cs, hp⟩ : ∃ cs, p.toList = '|' :: cs := List.head?_eq_some_iff.mp h
    have hnext : Lexeme.next? (.ofString p) = some (⟨0, .ok .bar⟩, ⟨1, cs⟩) := by
      unfold Source.ofString
      rw [hp]
      rfl
    rw [Lexeme.all_of_next?_eq_some hnext] at hr
    obtain ⟨r₁, hr₁, hr⟩ := Reader.exists_step_of_foldlM hr
    obtain rfl := Except.ok.inj hr₁
    have hempty : (Reader.outermost r.branches r.groups).emptyAt = some 0 :=
      Reader.foldlM_preserves (fun _ _ _ _ => Reader.emptyAt_step) rfl hr
    exact absurd hfinish (Reader.finish_ne_ok_of_emptyAt hempty)

theorem next?_leading_flags {letters : List Char}
    (hletters : ∀ c ∈ letters, c ∈ GroupHead.flagLetters) (cs : List Char) :
    Lexeme.next? ⟨0, '(' :: '?' :: (letters ++ ')' :: cs)⟩ =
      some (⟨0, .ok (.opening (.ok (.flags (letters.map (⟨·, true⟩)))))⟩,
        ⟨letters.length + 3, cs⟩) := by
  refine Lexeme.next?_opening ?_
  by_cases hne : letters = []
  · subst hne
    rfl
  · have hoffset : 0 + '('.utf8Size + 1 + letters.length + ')'.utf8Size = letters.length + 3 := by
      rw [show '('.utf8Size = 1 from rfl, show ')'.utf8Size = 1 from rfl]
      omega
    rw [GroupHead.scan_letters hletters hne, GroupHead.scanFlags, if_neg (by decide), if_pos rfl,
      List.reverse_reverse, hoffset]

variable {letters : List Char}

/-- **A flag group in front of a pattern** does what the flags do, on patterns with faults as well,
if the pattern does not begin with a bar. With a bar in front it is never accepted under the
flags. -/
theorem parse_leading_flags (hletters : ∀ c ∈ letters, c ∈ GroupHead.flagLetters) (p : String)
    (f : Flags) :
    (p.toList.head? ≠ some '|' →
      parse ("(?" ++ String.ofList letters ++ ")" ++ p) f =
        (parse p (f.enableAll letters)).mapError (.shifted (letters.length + 3))) ∧
    (p.toList.head? = some '|' → ∃ e, parse p (f.enableAll letters) = .error e) := by
  have hsource : Source.ofString ("(?" ++ String.ofList letters ++ ")" ++ p) =
      ⟨0, '(' :: '?' :: (letters ++ ')' :: p.toList)⟩ := by
    unfold Source.ofString
    simp
  have hshifted : (⟨letters.length + 3, p.toList⟩ : Source) =
      (Source.ofString p).shifted (letters.length + 3) := by
    unfold Source.ofString Source.shifted
    rw [Nat.zero_add]
  refine ⟨fun hbar => ?_, fun hbar => exists_error_of_bar hbar _⟩
  have hstep : ({ flags := f } : Reader).step
      ⟨0, .ok (.opening (.ok (.flags (letters.map (⟨·, true⟩)))))⟩ =
        .ok { flags := f.enableAll letters, branches := Branches.touch {} } := by
    rw [← Flags.change_letters]
    exact Reader.step_opening (r := { flags := f }) (show 0 < deepestNesting by decide) 0 _
  unfold parse
  rw [hsource, Reader.run_of_next? (next?_leading_flags hletters _) hstep, hshifted,
    Reader.run_eq_foldlM, Reader.run_eq_foldlM, Lexeme.all_shifted,
    Reader.foldlM_led_init (head_ne_bar hbar)]
  cases (Lexeme.all (.ofString p)).foldlM Reader.step { flags := f.enableAll letters } with
  | error e => rfl
  | ok r => exact Reader.finish_led r _

theorem parse_leading_flags_two :
    (∀ c ∈ ['m', 'u'], c ∈ GroupHead.flagLetters) ∧
      (∃ pattern, parse ("(?" ++ String.ofList ['m', 'u'] ++ ")" ++ "^\\d|(?<x>a)") {} =
        .ok pattern) ∧
      parse ("(?" ++ String.ofList ['m', 'u'] ++ ")" ++ "^(a") {} =
        .error ⟨.unbalancedParenthesis, 6⟩ ∧
      ∃ e, parse "|a" { multiLine := true, unicode := true } = .error e := by
  have hletters : ∀ c ∈ ['m', 'u'], c ∈ GroupHead.flagLetters := by
    simp [GroupHead.flagLetters]
  obtain ⟨pattern, hparse⟩ : ∃ pattern,
      parse "^\\d|(?<x>a)" { multiLine := true, unicode := true } = .ok pattern := by
    with_unfolding_all exact ⟨_, rfl⟩
  have hfault : parse "^(a" { multiLine := true, unicode := true } =
      .error ⟨.unbalancedParenthesis, 1⟩ := by
    with_unfolding_all rfl
  have haccepted := (parse_leading_flags hletters "^\\d|(?<x>a)" {}).1 (by decide)
  have hrejected := (parse_leading_flags hletters "^(a" {}).1 (by decide)
  have hbar := (parse_leading_flags hletters "|a" {}).2 (by decide)
  refine ⟨hletters, ⟨pattern, haccepted.trans ?_⟩, hrejected.trans ?_, hbar⟩
  · exact congrArg (Except.mapError _) hparse
  · exact congrArg (Except.mapError _) hfault

/-- A bar is accepted behind a flag group, and without it under the flags it is not. -/
theorem exists_parse_leading_flags_ne : ∃ p flags letter pattern e,
    letter ∈ GroupHead.flagLetters ∧
      parse ("(?" ++ String.ofList [letter] ++ ")" ++ p) flags = .ok pattern ∧
      parse p (flags.enableAll [letter]) = .error e := by
  refine ⟨"|a", {}, 's', ?_⟩
  with_unfolding_all exact ⟨_, _, by decide, rfl, rfl⟩

end Pattern

end LinearRegex
