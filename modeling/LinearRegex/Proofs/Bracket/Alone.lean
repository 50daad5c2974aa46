import LinearRegex.Proofs.Bracket.Scanned
import LinearRegex.Proofs.Pattern.LeadingFlags

/-!
# Patterns that are a bracket and nothing else

A pattern that begins with a bracket is read to that bracket only if nothing comes behind it but
changes of flags: anything else is put in a row with the bracket, chosen between or repeats it, and
that is never undone. A pattern that ends with a closing bracket does not end with a change of
flags.

Main statements: `Pattern.parse_of_spelled`, and `Pattern.exists_spelled_of_parse`.
-/

namespace LinearRegex

open Source

/-! ## Changes of flags end with a parenthesis -/

namespace GroupHead

variable {s t : Source}

theorem exists_reads_of_scanFlags {on : Bool} {read changes : List FlagChange} {o : Nat}
    {cs : List Char} (h : scanFlags on read o cs = .ok (.flags changes, t)) :
    ∃ ds, (⟨o, cs⟩ : Source).Reads (ds ++ [')']) t := by
  induction cs generalizing on read o with
  | nil => simp [scanFlags] at h
  | cons c cs ih =>
    have hc : (⟨o, c :: cs⟩ : Source).Reads [c] ⟨o + c.utf8Size, cs⟩ := ⟨rfl, rfl⟩
    have hmore : ∀ {on read}, scanFlags on read (o + c.utf8Size) cs = .ok (.flags changes, t) →
        ∃ ds, (⟨o, c :: cs⟩ : Source).Reads (ds ++ [')']) t := by
      intro on read h
      obtain ⟨ds, hds⟩ := ih h
      exact ⟨c :: ds, hc.trans hds⟩
    unfold scanFlags at h
    dsimp only at h
    split at h
    · simp at h
    · split at h
      · next hclosing =>
        subst hclosing
        obtain ⟨-, rfl⟩ := Prod.mk.inj (Except.ok.inj h)
        exact ⟨[], hc⟩
      · split at h
        · exact hmore h
        · split at h
          · exact hmore h
          · simp at h

theorem exists_reads_of_scan {changes : List FlagChange} (h : scan s = .ok (.flags changes, t)) :
    ∃ ds, s.Reads (ds ++ [')']) t := by
  have hname : ∀ {u}, scanName u ≠ .ok (.flags changes, t) := by
    intro u h
    unfold scanName at h
    dsimp only at h
    repeat' split at h
    all_goals simp at h
  unfold scan at h
  split at h
  · simp at h
  · next u hu =>
    split at h
    · exact absurd h hname
    · split at h
      · exact absurd h hname
      · split at h
        · simp at h
        · obtain ⟨ds, hds⟩ := exists_reads_of_scanFlags h
          exact ⟨'?' :: ds, (reads_of_skip? hu).trans hds⟩

end GroupHead

/-- Whether a lexeme changes flags and does nothing else. -/
def Lexeme.ChangesFlags (lx : Lexeme) : Prop :=
  ∃ changes, lx.token = .ok (.opening (.ok (.flags changes)))

theorem Lexeme.exists_reads_of_changesFlags {lx : Lexeme} {s t : Source}
    (h : next? s = some (lx, t)) (hlx : lx.ChangesFlags) : ∃ ds, s.Reads (ds ++ [')']) t := by
  obtain ⟨changes, hlx⟩ := hlx
  unfold next? at h
  split at h
  · simp at h
  · next c u hu =>
    have hu := reads_of_next? hu
    split at h
    · obtain ⟨rfl, -⟩ := Prod.mk.inj (Option.some.inj h)
      simp at hlx
    · next token v hscan =>
      obtain ⟨rfl, rfl⟩ := Prod.mk.inj (Option.some.inj h)
      obtain rfl := Except.ok.inj hlx
      rcases Pattern.scan_cases hscan with
        hsingle | ⟨q, hq⟩ | ⟨e, he⟩ | ⟨head, hhead, hscan⟩ | hpiece
      · unfold Token.single? at hsingle
        split at hsingle <;> simp at hsingle
      · simp at hq
      · simp at he
      · obtain rfl : GroupHead.flags changes = head := by simpa using hhead
        obtain ⟨ds, hds⟩ := GroupHead.exists_reads_of_scan hscan
        exact ⟨c :: ds, hu.trans hds⟩
      · simpa [Pattern.pieceOf?] using hpiece {}

theorem Lexeme.rest_eq_nil_of_next?_eq_none {s : Source} (h : next? s = none) : s.rest = [] := by
  unfold next? at h
  split at h
  · next hnext =>
    unfold Source.next? at hnext
    split at hnext
    · next hrest => exact hrest
    · simp at hnext
  · split at h <;> simp at h

/-- Where all lexemes change flags, the last character is a parenthesis. -/
theorem Lexeme.getLast?_of_changesFlags {s : Source} (h : ∀ lx ∈ all s, lx.ChangesFlags)
    (hs : s.rest ≠ []) : s.rest.getLast? = some ')' := by
  fun_induction all s with
  | case1 s hnext => exact absurd (rest_eq_nil_of_next?_eq_none hnext) hs
  | case2 s lx t hnext ih =>
    obtain ⟨hlx, hmore⟩ := List.forall_mem_cons.mp h
    obtain ⟨ds, hds⟩ := exists_reads_of_changesFlags hnext hlx
    rw [hds.rest, List.getLast?_append]
    by_cases ht : t.rest = []
    · rw [ht]
      simp
    · rw [ih hmore ht, Option.some_or]

namespace Pattern

/-! ## What is put behind a piece -/

namespace Branches

variable {b b' : Branches} {inside inside' : Prop}

/-- More than a piece has been read of an alternation: a branch that is complete, several pieces, or
a piece that is repeated or has a group behind it, if one is still open. -/
def Several (b : Branches) (inside : Prop) : Prop :=
  b.complete ≠ [] ∨ 2 ≤ b.pieces.length ∨
    b.pieces ≠ [] ∧ (inside ∨ ∃ body q rest, b.pieces = .loop body q :: rest)

theorem Several.mono (h : b.Several inside) (hinside : inside → inside') : b.Several inside' :=
  h.imp_right (Or.imp_right (And.imp_right (Or.imp_left hinside)))

theorem Several.push (h : b.Several inside) (n : Node) : (b.push n).Several inside' := by
  rcases h with hcomplete | hlength | ⟨hne, -⟩
  · exact .inl hcomplete
  · exact .inr (.inl (Nat.le_succ_of_le hlength))
  · exact .inr (.inl (Nat.succ_le_succ (List.length_pos_iff.mpr hne)))

theorem several_bar (b : Branches) (o : Nat) : (b.bar o).Several inside :=
  .inl (List.cons_ne_nil _ _)

theorem several_repeatLast? {q : Quantifier} (h : b.repeatLast? q = some b') :
    b'.Several inside := by
  obtain ⟨-, n, ns, -, rfl⟩ := repeatLast?_eq_some h
  exact .inr (.inr ⟨List.cons_ne_nil _ _, .inr ⟨n, q, ns, rfl⟩⟩)

theorem Several.ne_bracket (h : b.Several inside) (houtside : ¬ inside) (bracket : Bracket) :
    Node.choice b.nodes ≠ .bracket bracket := by
  -- Pieces that are several, or one that is repeated, are no bracket.
  have hpieces : ∀ ns : List Node, 2 ≤ ns.length → Node.sequence ns ≠ .bracket bracket := by
    intro ns hlength
    match ns, hlength with
    | _ :: _ :: _, _ => simp [Node.sequence]
  have hchoice : ∀ ns : List Node, 2 ≤ ns.length → Node.choice ns ≠ .bracket bracket := by
    intro ns hlength
    match ns, hlength with
    | _ :: _ :: _, _ => simp [Node.choice]
  unfold nodes
  cases hcomplete : b.complete with
  | cons n ns => exact hchoice _ (by simp)
  | nil =>
    show Node.sequence b.pieces.reverse ≠ .bracket bracket
    rcases h with hne | hlength | ⟨-, hin | ⟨body, q, rest, hloop⟩⟩
    · exact absurd hcomplete hne
    · exact hpieces _ (by rwa [List.length_reverse])
    · exact absurd hin houtside
    · rw [hloop]
      cases rest with
      | nil => simp [Node.sequence]
      | cons n ns => exact hpieces _ (by simp)

end Branches

namespace Reader

variable {r r' : Reader} {lx : Lexeme} {lxs : List Lexeme} {n : Node}

/-- One piece has been read outside of all groups, and nothing else but changes of flags. -/
structure Single (r : Reader) (n : Node) : Prop where
  groups : r.groups = []
  complete : r.branches.complete = []
  pieces : r.branches.pieces = [n]

/-- More than a piece has been read of the outermost alternation. -/
def Several (r : Reader) : Prop := (outermost r.branches r.groups).Several (r.groups ≠ [])

/-- **What has been read is never undone.** -/
theorem several_step (h : r.Several) (hstep : r.step lx = .ok r') : r'.Several := by
  unfold Several at h ⊢
  -- Within a group nothing is done to the outermost alternation.
  have hinside : ∀ {b b' : Branches} {groups : List OpenGroup},
      (outermost b groups).Several (groups ≠ []) → (groups = [] → b'.Several False) →
        (outermost b' groups).Several (groups ≠ []) := by
    intro b b' groups h hempty
    cases groups with
    | nil => exact (hempty rfl).mono (fun h => h.elim)
    | cons g groups => exact h
  have hhere : r.groups = [] → r.branches.Several False := by
    intro hgroups
    rw [hgroups] at h
    exact h.mono fun hne => hne rfl
  cases stepped_of_step hstep with
  | piece _ _ hr =>
    subst hr
    exact hinside h fun hgroups => (hhere hgroups).push _
  | repeated _ hbranches hr =>
    subst hr
    exact hinside h fun hgroups => Branches.several_repeatLast? hbranches
  | barred _ hr =>
    subst hr
    exact hinside h fun hgroups => Branches.several_bar _ _
  | closed _ hr =>
    obtain ⟨body, g, groups, -, hgroups, rfl⟩ := closing_eq_ok hr
    rw [hgroups] at h
    cases groups with
    | nil => exact (Branches.Several.push h _)
    | cons g' groups => exact h.mono fun _ => List.cons_ne_nil _ _
  | opened _ _ hr =>
    cases opened_of_opening hr with
    | changed _ hr =>
      subst hr
      exact hinside h hhere
    | grouped _ hr =>
      subst hr
      exact h.mono fun _ => List.cons_ne_nil _ _
    | captured _ _ hr =>
      subst hr
      exact h.mono fun _ => List.cons_ne_nil _ _

theorem several_of_groups_eq_nil (hgroups : r.groups = []) (h : r.branches.Several False) :
    r.Several := by
  unfold Several
  rw [hgroups]
  exact h.mono fun hin => hin.elim

/-- One piece stays the only one until something else than a change of flags comes. -/
theorem single_or_several_step (h : r.Single n) (hstep : r.step lx = .ok r') :
    lx.ChangesFlags ∧ r'.Single n ∨ r'.Several := by
  have hinside : r.branches.Several True := .inr (.inr ⟨by simp [h.pieces], .inl trivial⟩)
  cases stepped_of_step hstep with
  | piece _ _ hr =>
    subst hr
    exact .inr (several_of_groups_eq_nil h.groups (hinside.push _))
  | repeated _ hbranches hr =>
    subst hr
    exact .inr (several_of_groups_eq_nil h.groups (Branches.several_repeatLast? hbranches))
  | barred _ hr =>
    subst hr
    exact .inr (several_of_groups_eq_nil h.groups (Branches.several_bar _ _))
  | closed _ hr =>
    obtain ⟨body, g, groups, -, hgroups, rfl⟩ := closing_eq_ok hr
    rw [h.groups] at hgroups
    simp at hgroups
  | opened hlx _ hr =>
    cases opened_of_opening hr with
    | changed hhead hr' =>
      subst hhead
      subst hr'
      exact .inl ⟨⟨_, hlx⟩, h.groups, h.complete, h.pieces⟩
    | grouped _ hr =>
      subst hr
      refine .inr ?_
      unfold Several openGroup
      rw [h.groups]
      exact hinside.mono fun _ => List.cons_ne_nil _ _
    | captured _ _ hr =>
      subst hr
      refine .inr ?_
      unfold Several
      rw [h.groups]
      exact hinside.mono fun _ => List.cons_ne_nil _ _

theorem single_or_several_foldlM (h : r.Single n) (hrun : lxs.foldlM step r = .ok r') :
    (∀ lx ∈ lxs, lx.ChangesFlags) ∨ r'.Several := by
  induction lxs generalizing r with
  | nil => exact .inl (by simp)
  | cons lx lxs ih =>
    obtain ⟨r₁, hstep, hrun⟩ := exists_step_of_foldlM hrun
    rcases single_or_several_step h hstep with ⟨hlx, h₁⟩ | h₁
    · exact (ih h₁ hrun).imp_left fun hlxs => List.forall_mem_cons.mpr ⟨hlx, hlxs⟩
    · exact .inr (foldlM_preserves (fun _ _ _ _ => several_step) h₁ hrun)

theorem Several.ne_bracket {pattern : Pattern} (h : r.Several) (hfinish : r.finish = .ok pattern)
    (b : Bracket) : pattern.node ≠ .bracket b := by
  obtain ⟨hnode, hgroups, -⟩ := finish_eq_ok hfinish
  obtain ⟨-, hnode⟩ := Branches.finish_eq_ok hnode
  unfold Several at h
  rw [hgroups] at h
  rw [hnode]
  exact h.ne_bracket (fun hne => hne rfl) b

end Reader

/-! ## A bracket alone -/

variable {p : String} {flags : Flags} {negated : Bool} {items : List BracketItem}

/-- **What is spelled as a bracket is read to it.** -/
theorem parse_of_spelled (h : BracketItem.Spelled p.toList negated items) (flags : Flags) :
    parse p flags = .ok ⟨.bracket (.ofItems flags negated items), flags, #[none]⟩ := by
  have hreads : (Source.ofString p).Reads p.toList ⟨Utf8.byteLength p.toList, []⟩ :=
    ⟨(List.append_nil _).symm, (Nat.zero_add _).symm⟩
  unfold parse
  rw [Reader.run_of_next? (BracketItem.next?_of_spelled h hreads)
    (Reader.step_of_piece (r := { flags }) rfl _), Reader.run_nil]
  rfl

/-- **A pattern in brackets that is read to a bracket is spelled as one.** -/
theorem exists_spelled_of_parse {body : String} {pattern : Pattern} {b : Bracket}
    (h : parse ("[" ++ body ++ "]") flags = .ok pattern) (hnode : pattern.node = .bracket b) :
    ∃ negated items, BracketItem.Spelled ("[" ++ body ++ "]").toList negated items := by
  obtain ⟨r, hrun, hfinish⟩ := exists_finish_of_parse h
  have hchars : ("[" ++ body ++ "]").toList = '[' :: (body.toList ++ [']']) := by simp
  have hhead : (Source.ofString ("[" ++ body ++ "]")).rest.head? = some '[' := by
    unfold Source.ofString
    rw [hchars]
    rfl
  cases hnext : Lexeme.next? (.ofString ("[" ++ body ++ "]")) with
  | none =>
    rw [Lexeme.rest_eq_nil_of_next?_eq_none hnext] at hhead
    simp at hhead
  | some next =>
    obtain ⟨⟨o, token⟩, t⟩ := next
    rw [Lexeme.all_of_next?_eq_some hnext] at hrun
    obtain ⟨r₁, hstep, hrun⟩ := Reader.exists_step_of_foldlM hrun
    cases token with
    | error e => simp [Reader.step] at hstep
    | ok token =>
      obtain ⟨text, negated, items, htext, hreads, rfl⟩ :=
        BracketItem.exists_spelled_of_next? hhead hnext
      obtain rfl := Except.ok.inj hstep
      have hall : '[' :: (body.toList ++ [']']) = text ++ t.rest := by
        rw [← hchars]
        exact hreads.rest
      by_cases hrest : t.rest = []
      · rw [hchars, hall, hrest, List.append_nil]
        exact ⟨negated, items, htext⟩
      · have hsingle : (({ flags } : Reader).push
            (.bracket (.ofItems flags negated items))).Single _ := ⟨rfl, rfl, rfl⟩
        rcases Reader.single_or_several_foldlM hsingle hrun with hchanges | hseveral
        · have hlast := Lexeme.getLast?_of_changesFlags hchanges hrest
          have hclosing : ('[' :: (body.toList ++ [']'])).getLast? = some ']' := by
            rw [← List.cons_append, List.getLast?_concat]
          rw [hall, List.getLast?_append, hlast] at hclosing
          simp at hclosing
        · exact absurd hnode (hseveral.ne_bracket hfinish b)

end Pattern

end LinearRegex
