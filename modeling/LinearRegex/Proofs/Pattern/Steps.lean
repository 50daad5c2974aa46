import LinearRegex.Pattern.Parser
import LinearRegex.Proofs.Pattern.Enclosed

/-!
# What a step of the reader does

The reader takes in one lexeme after the other. A token alone stands for a piece; a quantifier goes
around the last one, a group is opened or closed, or a bar ends a branch. Whatever is kept by each
of these is kept while a pattern is read.

Main statements: `Reader.stepped_of_step` for one lexeme, with `Reader.opened_of_opening` for the
head of a group; `Reader.foldlM_preserves` for all lexemes, and `exists_finish_of_parse`.
-/

namespace LinearRegex

theorem Flags.change_append (flags : Flags) (changes more : List FlagChange) :
    flags.change (changes ++ more) = (flags.change changes).change more := List.foldl_append

/-! ## From tokens to lexemes -/

/-- A character that is told apart from all that mean something else stands for itself. -/
theorem Token.scan_char {c : Char} (hsingle : single? c = none)
    (hquantifier : quantifier? c = none) (hne : ∀ d ∈ ['\x7b', '(', '[', ']', '\\'], c ≠ d)
    (o : Nat) (s : Source) : scan o c s = .ok (.char c, s) := by
  unfold scan
  rw [hsingle, hquantifier]
  dsimp only
  rw [if_neg (hne '\x7b' (by simp)), if_neg (hne '(' (by simp)), if_neg (hne '[' (by simp)),
    if_neg (hne ']' (by simp)), if_neg (hne '\\' (by simp))]

theorem Token.scan_parenthesis (o : Nat) (s : Source) :
    scan o '(' s = match GroupHead.scan s with
      | .error e => .ok (.opening (.error e), s)
      | .ok (head, t) => .ok (.opening (.ok head), t) := rfl

namespace Lexeme

variable {o : Nat} {c : Char} {cs : List Char} {s t : Source}

/-- The token that a character begins is that of the next lexeme. -/
theorem next?_of_scan {token : Token}
    (h : Token.scan o c ⟨o + c.utf8Size, cs⟩ = .ok (token, t)) :
    next? ⟨o, c :: cs⟩ = some (⟨o, .ok token⟩, t) := by
  unfold next?
  simp only [Source.next?, Source.behind, h]

theorem next?_of_scan_error {e : PatternError}
    (h : Token.scan o c ⟨o + c.utf8Size, cs⟩ = .error e) :
    next? ⟨o, c :: cs⟩ = some (⟨o, .error e⟩, ⟨o + c.utf8Size, cs⟩) := by
  unfold next?
  simp only [Source.next?, Source.behind, h]

theorem next?_single {token : Token} (hsingle : Token.single? c = some token)
    (h : s.skip? c = some t) : next? s = some (⟨s.offset, .ok token⟩, t) := by
  obtain ⟨o, cs⟩ := s
  cases cs with
  | nil => simp [Source.skip?] at h
  | cons d cs =>
    unfold Source.skip? at h
    dsimp only at h
    split at h
    · next hd =>
      subst hd
      obtain rfl := Option.some.inj h
      refine next?_of_scan ?_
      unfold Token.scan
      rw [hsingle]
      rfl
    · simp at h

/-- The head of a group that an opening parenthesis begins. -/
theorem next?_opening {head : GroupHead}
    (h : GroupHead.scan ⟨o + '('.utf8Size, cs⟩ = .ok (head, t)) :
    next? ⟨o, '(' :: cs⟩ = some (⟨o, .ok (.opening (.ok head))⟩, t) := by
  refine next?_of_scan ((Token.scan_parenthesis o _).trans ?_)
  rw [h]

theorem next?_opening_error {e : PatternError}
    (h : GroupHead.scan ⟨o + '('.utf8Size, cs⟩ = .error e) :
    next? ⟨o, '(' :: cs⟩ = some (⟨o, .ok (.opening (.error e))⟩, ⟨o + '('.utf8Size, cs⟩) := by
  refine next?_of_scan ((Token.scan_parenthesis o _).trans ?_)
  rw [h]

end Lexeme

namespace Pattern

/-! ## One token -/

/-- The piece that a token alone stands for. -/
def pieceOf? (flags : Flags) : Token → Option Node
  | .char c => some (.literal c flags)
  | .dot => some (if flags.dotAll then .any else .anyButNewline)
  | .caret => some (.assertion (if flags.multiLine then .lineStart else .textStart))
  | .dollar => some (.assertion (if flags.multiLine then .lineEnd else .textEnd))
  | .textStart => some (.assertion .textStart)
  | .textEnd => some (.assertion .textEnd)
  | .wordBoundary negated => some (.assertion (.wordBoundary negated flags.unicode))
  | .escape e => some (.ofEscape e flags)
  | .bracket negated items => some (.bracket (.ofItems flags negated items))
  | _ => none

/-- **What a token can be.** It is told by its first character alone, or it is a quantifier or opens
a group, or it stands for a piece. -/
theorem scan_cases {o : Nat} {c : Char} {s t : Source} {token : Token}
    (h : Token.scan o c s = .ok (token, t)) :
    Token.single? c = some token ∨ (∃ q, token = .quantifier q) ∨
      (∃ e, token = .opening (.error e)) ∨
      (∃ head, token = .opening (.ok head) ∧ GroupHead.scan s = .ok (head, t)) ∨
      ∀ flags, (pieceOf? flags token).isSome = true := by
  unfold Token.scan at h
  split at h
  · next hsingle =>
    obtain ⟨rfl, -⟩ := Prod.mk.inj (Except.ok.inj h)
    exact Or.inl hsingle
  · obtain ⟨rfl, -⟩ := Prod.mk.inj (Except.ok.inj h)
    exact Or.inr (Or.inl ⟨_, rfl⟩)
  · refine Or.inr ?_
    split at h
    · split at h
      · simp at h
      · obtain ⟨rfl, -⟩ := Prod.mk.inj (Except.ok.inj h)
        exact Or.inl ⟨_, rfl⟩
    · refine Or.inr ?_
      split at h
      · split at h
        · obtain ⟨rfl, -⟩ := Prod.mk.inj (Except.ok.inj h)
          exact Or.inl ⟨_, rfl⟩
        · next head u hhead =>
          obtain ⟨rfl, rfl⟩ := Prod.mk.inj (Except.ok.inj h)
          exact Or.inr (Or.inl ⟨head, rfl, hhead⟩)
      · refine Or.inr (Or.inr fun flags => ?_)
        split at h
        · unfold BracketItem.scan at h
          dsimp only at h
          split at h
          · simp at h
          · obtain ⟨rfl, -⟩ := Prod.mk.inj (Except.ok.inj h)
            rfl
        · split at h
          · simp at h
          · split at h
            · unfold Token.scanEscape at h
              repeat' split at h
              all_goals first
                | obtain ⟨rfl, -⟩ := Prod.mk.inj (Except.ok.inj h)
                  rfl
                | simp at h
            · obtain ⟨rfl, -⟩ := Prod.mk.inj (Except.ok.inj h)
              rfl

/-! ## One lexeme -/

theorem Branches.repeatLast?_eq_some {b b' : Branches} {q : Quantifier}
    (h : b.repeatLast? q = some b') : b.repeatable = true ∧ ∃ n ns, b.pieces = n :: ns ∧
      b' = { b with pieces := .loop n q :: ns, repeatable := false } := by
  unfold repeatLast? at h
  split at h
  · next n ns hrepeatable hpieces => exact ⟨hrepeatable, n, ns, hpieces, (Option.some.inj h).symm⟩
  · simp at h

theorem Branches.finish_eq_ok {b : Branches} {n : Node} (h : b.finish = .ok n) :
    b.emptyAt = none ∧ n = Node.choice b.nodes := by
  unfold finish at h
  split at h
  · simp at h
  · next hblame => exact ⟨(Option.or_eq_none_iff.mp hblame).1, (Except.ok.inj h).symm⟩

/-- The piece that an open group with a body becomes. -/
def OpenGroup.piece (g : OpenGroup) (body : Node) : Node :=
  match g.capture with
  | none => body
  | some (index, name) => .group body index name

namespace Reader

variable {r r' : Reader} {lx : Lexeme} {lxs : List Lexeme} {o : Nat} {head : GroupHead}

theorem openCapture_eq_ok {name : Option String} (h : r.openCapture o name = .ok r') :
    r.names.size ≤ mostGroups ∧ r' =
      { r with
        names := r.names.push name
        groups := ⟨o, some (r.names.size, name), r.flags, r.branches⟩ :: r.groups
        branches := {} } := by
  unfold openCapture at h
  split at h
  · simp at h
  · next hsize => exact ⟨Nat.not_lt.mp hsize, (Except.ok.inj h).symm⟩

/-- What can come of the head of a group. -/
inductive Opened (r : Reader) (o : Nat) (head : GroupHead) (r' : Reader) : Prop
  | changed {changes : List FlagChange} (hhead : head = .flags changes)
    (h : r' = { r with flags := r.flags.change changes, branches := r.branches.touch })
  | grouped {flags : Flags} (hhead : head = .plain ∧ flags = r.flags ∨
      ∃ changes, head = .scoped changes ∧ flags = r.flags.change changes)
    (h : r' = r.openGroup o flags)
  | captured {name : Option String} (hhead : head = .capture ∧ name = none ∨
      ∃ s offset, head = .named s offset ∧ name = some s ∧ some s ∉ r.names)
    (hsize : r.names.size ≤ mostGroups)
    (h : r' =
      { r with
        names := r.names.push name
        groups := ⟨o, some (r.names.size, name), r.flags, r.branches⟩ :: r.groups
        branches := {} })

/-- **What the head of a group does.** -/
theorem opened_of_opening (h : r.opening o head = .ok r') : r.Opened o head r' := by
  cases head with
  | capture =>
    obtain ⟨hsize, h⟩ := openCapture_eq_ok h
    exact .captured (.inl ⟨rfl, rfl⟩) hsize h
  | named s offset =>
    unfold opening at h
    dsimp only at h
    split at h
    · simp at h
    · next hcontains =>
      have hnew : some s ∉ r.names := fun hmem => hcontains (Array.contains_iff_mem.mpr hmem)
      obtain ⟨hsize, h⟩ := openCapture_eq_ok h
      exact .captured (.inr ⟨s, offset, rfl, rfl, hnew⟩) hsize h
  | plain => exact .grouped (.inl ⟨rfl, rfl⟩) (Except.ok.inj h).symm
  | flags changes => exact .changed rfl (Except.ok.inj h).symm
  | _ => exact .grouped (.inr ⟨_, rfl, rfl⟩) (Except.ok.inj h).symm

theorem closing_eq_ok (h : r.closing o = .ok r') :
    ∃ body g groups, r.branches.finish = .ok body ∧ r.groups = g :: groups ∧
      r' = { r with flags := g.flags, groups, branches := g.around.push (g.piece body) } := by
  unfold closing at h
  split at h
  · simp at h
  · next body hbody =>
    split at h
    · simp at h
    · next g groups hgroups => exact ⟨body, g, groups, hbody, hgroups, (Except.ok.inj h).symm⟩

/-- What can come of taking in a lexeme. -/
inductive Stepped (r : Reader) (lx : Lexeme) (r' : Reader) : Prop
  | piece {token : Token} {n : Node} (htoken : lx.token = .ok token)
    (hn : pieceOf? r.flags token = some n) (h : r' = r.push n)
  | repeated {q : Quantifier} {branches : Branches} (htoken : lx.token = .ok (.quantifier q))
    (hbranches : r.branches.repeatLast? q = some branches) (h : r' = { r with branches })
  | opened {head : GroupHead} (htoken : lx.token = .ok (.opening (.ok head)))
    (hdepth : r.groups.length < deepestNesting) (h : r.opening lx.offset head = .ok r')
  | closed (htoken : lx.token = .ok .closing) (h : r.closing lx.offset = .ok r')
  | barred (htoken : lx.token = .ok .bar) (h : r' = { r with branches := r.branches.bar lx.offset })

theorem step_of_piece {token : Token} {n : Node} (hn : pieceOf? r.flags token = some n) (o : Nat) :
    r.step ⟨o, .ok token⟩ = .ok (r.push n) := by
  cases token with
  | quantifier => simp [pieceOf?] at hn
  | opening => simp [pieceOf?] at hn
  | closing => simp [pieceOf?] at hn
  | bar => simp [pieceOf?] at hn
  | _ =>
    obtain rfl := Option.some.inj hn
    rfl

theorem step_opening (hdepth : r.groups.length < deepestNesting) (o : Nat) (head : GroupHead) :
    r.step ⟨o, .ok (.opening (.ok head))⟩ = r.opening o head := if_neg (Nat.not_le.mpr hdepth)

/-- **What a step of the reader does.** -/
theorem stepped_of_step (h : r.step lx = .ok r') : r.Stepped lx r' := by
  obtain ⟨o, token⟩ := lx
  cases token with
  | error e => simp [step] at h
  | ok token =>
    cases hpiece : pieceOf? r.flags token with
    | some n => exact .piece rfl hpiece (Except.ok.inj ((step_of_piece hpiece o).symm.trans h)).symm
    | none =>
      cases token with
      | quantifier q =>
        unfold step at h
        dsimp only at h
        split at h
        · next branches hbranches => exact .repeated rfl hbranches (Except.ok.inj h).symm
        · simp at h
      | opening head =>
        unfold step at h
        dsimp only at h
        split at h
        · simp at h
        · next hdepth =>
          split at h
          · simp at h
          · exact .opened rfl (Nat.not_le.mp hdepth) h
      | closing => exact .closed rfl h
      | bar => exact .barred rfl (Except.ok.inj h).symm
      | _ => simp [pieceOf?] at hpiece

/-! ## All lexemes -/

theorem exists_step_of_foldlM (h : (lx :: lxs).foldlM step r = .ok r') :
    ∃ r₁, r.step lx = .ok r₁ ∧ lxs.foldlM step r₁ = .ok r' := by
  rw [List.foldlM_cons] at h
  cases hstep : r.step lx with
  | error e =>
    rw [hstep] at h
    simp [bind, Except.bind] at h
  | ok r₁ =>
    rw [hstep] at h
    exact ⟨r₁, rfl, h⟩

/-- **What every lexeme keeps is kept while lexemes are taken in.** -/
theorem foldlM_preserves {P : Reader → Prop}
    (hstep : ∀ lx ∈ lxs, ∀ r r', P r → r.step lx = .ok r' → P r') (h : P r)
    (hrun : lxs.foldlM step r = .ok r') : P r' := by
  induction lxs generalizing r with
  | nil =>
    obtain rfl := Except.ok.inj hrun
    exact h
  | cons lx lxs ih =>
    obtain ⟨hlx, hlxs⟩ := List.forall_mem_cons.mp hstep
    obtain ⟨r₁, h₁, hrun⟩ := exists_step_of_foldlM hrun
    exact ih hlxs (hlx r r₁ h h₁) hrun

/-- Reading takes in one lexeme after the other. -/
theorem run_eq_foldlM (r : Reader) (s : Source) : r.run s = (Lexeme.all s).foldlM step r := by
  fun_induction Reader.run r s with
  | case1 r s hs =>
    rw [Lexeme.all_of_next?_eq_none hs]
    rfl
  | case2 r s lx t hs e he =>
    rw [Lexeme.all_of_next?_eq_some hs, List.foldlM_cons, he]
    rfl
  | case3 r s lx t hs r₁ hr₁ ih =>
    rw [Lexeme.all_of_next?_eq_some hs, List.foldlM_cons, hr₁]
    exact ih

theorem run_of_next? {lx : Lexeme} {s t : Source}
    (hnext : Lexeme.next? s = some (lx, t)) (hstep : r.step lx = .ok r') : r.run s = r'.run t := by
  rw [run_eq_foldlM, run_eq_foldlM, Lexeme.all_of_next?_eq_some hnext, List.foldlM_cons, hstep]
  rfl

theorem run_nil (r : Reader) (o : Nat) : r.run ⟨o, []⟩ = .ok r := by
  rw [run_eq_foldlM, Lexeme.all_of_next?_eq_none rfl]
  rfl

end Reader

theorem Reader.finish_eq_ok {r : Reader} {pattern : Pattern} (h : r.finish = .ok pattern) :
    r.branches.finish = .ok pattern.node ∧ r.groups = [] ∧
      pattern = ⟨pattern.node, r.flags, r.names⟩ := by
  unfold finish at h
  split at h
  · simp at h
  · next node hnode =>
    split at h
    · next hgroups =>
      obtain rfl := Except.ok.inj h
      exact ⟨hnode, hgroups, rfl⟩
    · simp at h

theorem exists_finish_of_parse {source : String} {flags : Flags} {pattern : Pattern}
    (h : parse source flags = .ok pattern) : ∃ r : Reader,
      (Lexeme.all (.ofString source)).foldlM Reader.step { flags } = .ok r ∧
        r.finish = .ok pattern := by
  unfold parse at h
  rw [Reader.run_eq_foldlM] at h
  split at h
  · simp at h
  · next r hr => exact ⟨r, hr, h⟩

/-- What a pattern comes to, by the reader at its end. -/
theorem exists_reader_of_parse {source : String} {flags : Flags} {pattern : Pattern}
    (h : parse source flags = .ok pattern) : ∃ r : Reader,
      (Lexeme.all (.ofString source)).foldlM Reader.step { flags } = .ok r ∧
        r.branches.finish = .ok pattern.node ∧ r.groups = [] ∧ r.names = pattern.groupNames := by
  obtain ⟨r, hr, hfinish⟩ := exists_finish_of_parse h
  obtain ⟨hnode, hgroups, hpattern⟩ := Reader.finish_eq_ok hfinish
  exact ⟨r, hr, hnode, hgroups, by rw [hpattern]⟩

end Pattern

end LinearRegex
