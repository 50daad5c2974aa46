import LinearRegex.Proofs.Pattern.Surrounded

/-!
# Numbers and names of groups

Groups that capture are numbered in the order of their opening parentheses, which is the order in
which they stand in the tree. A number is given out before anything is read of its group, and the
place of the name in the table is the number. So at any time the groups that are open or complete,
from left to right, are numbered as the table lists them.

Main statements: `Reader.capturedSoFar_step` for one lexeme, and `listed_of_parse`.
-/

namespace LinearRegex

/-! ## The groups of a tree -/

namespace Node

mutual

/-- The groups of a piece with their numbers, each before those inside it. -/
def captured : Node → List (Option String × Nat)
  | .empty => []
  | .char _ _ => []
  | .any => []
  | .anyButNewline => []
  | .bracket _ => []
  | .assertion _ => []
  | .cat nodes => capturedAll nodes
  | .alt branches => capturedAll branches
  | .loop body _ => captured body
  | .group body index name => (name, index) :: captured body

/-- The groups of pieces, from left to right. -/
def capturedAll : List Node → List (Option String × Nat)
  | [] => []
  | n :: ns => captured n ++ capturedAll ns

end

theorem capturedAll_append (ns ms : List Node) :
    capturedAll (ns ++ ms) = capturedAll ns ++ capturedAll ms := by
  induction ns with
  | nil => rw [List.nil_append, capturedAll, List.nil_append]
  | cons n ns ih => rw [List.cons_append, capturedAll, capturedAll, ih, List.append_assoc]

theorem capturedAll_singleton (n : Node) : capturedAll [n] = n.captured := by
  rw [capturedAll, capturedAll, List.append_nil]

theorem captured_sequence (ns : List Node) : (sequence ns).captured = capturedAll ns := by
  match ns with
  | [] => rw [sequence, captured, capturedAll]
  | [n] => rw [sequence, capturedAll_singleton]
  | n :: m :: ns => exact captured.eq_def (.cat (n :: m :: ns))

theorem captured_choice (ns : List Node) : (choice ns).captured = capturedAll ns := by
  match ns with
  | [] => rw [choice, captured, capturedAll]
  | [n] => rw [choice, capturedAll_singleton]
  | n :: m :: ns => exact captured.eq_def (.alt (n :: m :: ns))

end Node

namespace Pattern

/-- A piece that a token alone stands for has no groups. -/
theorem captured_of_pieceOf? {flags : Flags} {token : Token} {n : Node}
    (h : pieceOf? flags token = some n) : n.captured = [] := by
  cases token with
  | quantifier => simp [pieceOf?] at h
  | opening => simp [pieceOf?] at h
  | closing => simp [pieceOf?] at h
  | bar => simp [pieceOf?] at h
  | char c =>
    obtain rfl := Option.some.inj h
    unfold Node.literal
    split <;> rw [Node.captured]
  | dot =>
    obtain rfl := Option.some.inj h
    split <;> rw [Node.captured]
  | _ =>
    obtain rfl := Option.some.inj h
    first | rw [Node.captured] | rw [Node.ofEscape, Node.captured]

/-! ## The groups that have been read -/

namespace Branches

variable {b b' : Branches} {n : Node}

/-- The groups that have been read of an alternation, from left to right. -/
def captured (b : Branches) : List (Option String × Nat) :=
  Node.capturedAll b.complete.reverse ++ Node.capturedAll b.pieces.reverse

theorem captured_push (b : Branches) (n : Node) :
    (b.push n).captured = b.captured ++ n.captured := by
  unfold captured push
  rw [List.reverse_cons, Node.capturedAll_append, Node.capturedAll_singleton, List.append_assoc]

theorem captured_repeatLast? {q : Quantifier} (h : b.repeatLast? q = some b') :
    b'.captured = b.captured := by
  obtain ⟨-, n, ns, hpieces, rfl⟩ := repeatLast?_eq_some h
  unfold captured
  rw [hpieces, List.reverse_cons, List.reverse_cons, Node.capturedAll_append,
    Node.capturedAll_append, Node.capturedAll_singleton, Node.capturedAll_singleton, Node.captured]

theorem capturedAll_nodes (b : Branches) : Node.capturedAll b.nodes = b.captured := by
  unfold captured nodes
  rw [List.reverse_cons, Node.capturedAll_append, Node.capturedAll_singleton,
    Node.captured_sequence]

theorem captured_bar (b : Branches) (o : Nat) : (b.bar o).captured = b.captured := by
  rw [← capturedAll_nodes b]
  unfold captured bar nodes
  rw [List.reverse_nil, Node.capturedAll, List.append_nil]

theorem captured_finish (h : b.finish = .ok n) : n.captured = b.captured := by
  unfold finish at h
  split at h
  · simp at h
  · obtain rfl := Except.ok.inj h
    rw [Node.captured_choice, capturedAll_nodes]

end Branches

/-- The groups that have been read in front of an alternation, by the groups that are open around
it: each stands behind what has been read around it. -/
def capturedBefore : List OpenGroup → List (Option String × Nat)
  | [] => []
  | g :: groups =>
    capturedBefore groups ++ g.around.captured ++
      (g.capture.map fun (index, name) => (name, index)).toList

namespace Reader

variable {r r' : Reader} {lx : Lexeme} {lxs : List Lexeme} {o : Nat}

/-- The groups that have been read or opened, from left to right. -/
def capturedSoFar (r : Reader) : List (Option String × Nat) :=
  capturedBefore r.groups ++ r.branches.captured

theorem capturedSoFar_closing (h : r.closing o = .ok r') :
    r'.capturedSoFar = r.capturedSoFar ∧ r'.names = r.names := by
  obtain ⟨body, g, groups, hbody, hgroups, rfl⟩ := closing_eq_ok h
  refine ⟨?_, rfl⟩
  unfold capturedSoFar
  dsimp only
  rw [hgroups, capturedBefore, Branches.captured_push, ← Branches.captured_finish hbody]
  obtain ⟨offset, capture, flags, around⟩ := g
  cases capture with
  | none => simp [OpenGroup.piece]
  | some capture =>
    obtain ⟨index, name⟩ := capture
    simp [OpenGroup.piece, Node.captured]

/-- **What a lexeme does to the groups and to the table of names**: either nothing, or a group is
opened under the next number, and its name, if it has one, is new. -/
theorem capturedSoFar_step (h : r.step lx = .ok r') :
    (r'.capturedSoFar = r.capturedSoFar ∧ r'.names = r.names) ∨
    ∃ name, r'.capturedSoFar = r.capturedSoFar ++ [(name, r.names.size)] ∧
      r'.names = r.names.push name ∧ r.names.size ≤ mostGroups ∧
      ∀ s, name = some s → some s ∉ r.names ∧
        ∃ o, lx.token = .ok (.opening (.ok (.named s o))) := by
  cases stepped_of_step h with
  | piece _ hn hr =>
    subst hr
    refine Or.inl ⟨?_, rfl⟩
    unfold capturedSoFar push
    rw [Branches.captured_push, captured_of_pieceOf? hn, List.append_nil]
  | repeated _ hbranches hr =>
    subst hr
    exact Or.inl ⟨congrArg (_ ++ ·) (Branches.captured_repeatLast? hbranches), rfl⟩
  | barred _ hr =>
    subst hr
    exact Or.inl ⟨congrArg (_ ++ ·) (Branches.captured_bar _ _), rfl⟩
  | closed _ hr => exact Or.inl (capturedSoFar_closing hr)
  | opened htoken _ hr =>
    cases opened_of_opening hr with
    | changed _ hr =>
      subst hr
      exact Or.inl ⟨rfl, rfl⟩
    | grouped _ hr =>
      subst hr
      refine Or.inl ⟨?_, rfl⟩
      unfold capturedSoFar openGroup
      rw [capturedBefore]
      simp [Branches.captured, Node.capturedAll]
    | @captured name hhead hsize hr =>
      subst hr
      refine Or.inr ⟨name, ?_, rfl, hsize, ?_⟩
      · unfold capturedSoFar
        rw [capturedBefore]
        exact List.append_nil _
      · rintro s rfl
        rcases hhead with ⟨-, hname⟩ | ⟨s', offset, rfl, hname, hnew⟩
        · simp at hname
        · obtain rfl := Option.some.inj hname
          exact ⟨hnew, offset, htoken⟩

end Reader

/-! ## Names -/

/-- A name of letters, digits and underscores that does not begin with a digit. -/
def IsIdentifier (name : String) : Prop :=
  ∃ c cs, name.toList = c :: cs ∧ (c.isAlpha = true ∨ c = '_') ∧
    ∀ d ∈ cs, d.isAlphanum = true ∨ d = '_'

/-- A lexeme in which a name, if it has one, is an identifier. -/
def WellNamed (lx : Lexeme) : Prop :=
  ∀ name o, lx.token = .ok (.opening (.ok (.named name o))) → IsIdentifier name

theorem isIdentifier_of_isName {cs : List Char} (h : GroupHead.isName cs = true) :
    IsIdentifier (String.ofList cs) := by
  unfold GroupHead.isName at h
  obtain ⟨hall, hfirst⟩ := Bool.and_eq_true_iff.mp h
  have hnameChar : ∀ c ∈ cs, c.isAlphanum = true ∨ c = '_' := by
    intro c hc
    have := List.all_eq_true.mp hall c hc
    simpa [GroupHead.isNameChar] using this
  cases cs with
  | nil => simp at hfirst
  | cons c cs =>
    refine ⟨c, cs, String.toList_ofList, ?_, fun d hd => hnameChar d (List.mem_cons_of_mem _ hd)⟩
    rcases hnameChar c List.mem_cons_self with hc | hc
    · simp only [Char.isAlphanum, Bool.or_eq_true] at hc
      exact Or.inl (hc.resolve_right fun hdigit => by simp [hdigit] at hfirst)
    · exact Or.inr hc

theorem isIdentifier_of_scanName {s t : Source} {name : String} {o : Nat}
    (h : GroupHead.scanName s = .ok (.named name o, t)) : IsIdentifier name := by
  unfold GroupHead.scanName at h
  dsimp only at h
  split at h
  · split at h
    · next hname =>
      obtain ⟨hhead, -⟩ := Prod.mk.inj (Except.ok.inj h)
      injection hhead with hname' _
      exact hname' ▸ isIdentifier_of_isName hname
    · simp at h
  · simp at h

/-- Flags have no name. -/
theorem scanFlags_ne_named {on : Bool} {read : List FlagChange} {offset o : Nat} {cs : List Char}
    {t : Source} {name : String} :
    GroupHead.scanFlags on read offset cs ≠ .ok (.named name o, t) := by
  induction cs generalizing on read offset with
  | nil => simp [GroupHead.scanFlags]
  | cons c cs ih =>
    rw [GroupHead.scanFlags]
    dsimp only
    repeat' split
    all_goals first
      | exact ih
      | simp

theorem isIdentifier_of_scan {s t : Source} {name : String} {o : Nat}
    (h : GroupHead.scan s = .ok (.named name o, t)) : IsIdentifier name := by
  unfold GroupHead.scan at h
  split at h
  · simp at h
  · split at h
    · exact isIdentifier_of_scanName h
    · split at h
      · exact isIdentifier_of_scanName h
      · split at h
        · simp at h
        · exact absurd h scanFlags_ne_named

theorem wellNamed_of_next? {s t : Source} {lx : Lexeme} (h : Lexeme.next? s = some (lx, t)) :
    WellNamed lx := by
  intro name o htoken
  unfold Lexeme.next? at h
  split at h
  · simp at h
  · split at h
    · obtain ⟨rfl, -⟩ := Prod.mk.inj (Option.some.inj h)
      simp at htoken
    · next c u _ token v hscan =>
      obtain ⟨rfl, -⟩ := Prod.mk.inj (Option.some.inj h)
      obtain rfl : token = _ := Except.ok.inj htoken
      rcases scan_cases hscan with hsingle | ⟨q, hq⟩ | ⟨e, he⟩ | ⟨head, hhead, hscan⟩ | hpiece
      · unfold Token.single? at hsingle
        split at hsingle <;> simp at hsingle
      · simp at hq
      · simp at he
      · obtain rfl : _ = head := by simpa using hhead
        exact isIdentifier_of_scan hscan
      · simpa [pieceOf?] using hpiece {}

theorem wellNamed_of_mem_all {s : Source} : ∀ lx ∈ Lexeme.all s, WellNamed lx := by
  fun_induction Lexeme.all s with
  | case1 s hs => simp
  | case2 s lx t hs ih => exact List.forall_mem_cons.mpr ⟨wellNamed_of_next? hs, ih⟩

/-! ## The table of names -/

/-- Groups behind the whole match are numbered as a table lists them, and the names in it are
different identifiers. -/
structure Listed (groups : List (Option String × Nat)) (names : Array (Option String)) : Prop where
  zipIdx : (none, 0) :: groups = names.toList.zipIdx
  distinct : names.toList.Pairwise fun a b => ∀ name, a = some name → b ≠ some name
  identifiers : ∀ name, some name ∈ names → IsIdentifier name
  size_le : names.size ≤ mostGroups + 1

namespace Listed

variable {groups : List (Option String × Nat)} {names : Array (Option String)}
variable {name : Option String} {i j : Nat}

theorem init : Listed [] #[none] := ⟨rfl, List.pairwise_singleton _ _, by simp, Nat.le_add_left 1 _⟩

/-- A group that is opened is listed under the next number. -/
theorem push (h : Listed groups names) (hsize : names.size ≤ mostGroups)
    (hnew : ∀ s, name = some s → some s ∉ names ∧ IsIdentifier s) :
    Listed (groups ++ [(name, names.size)]) (names.push name) := by
  refine ⟨?_, ?_, ?_, ?_⟩
  · rw [Array.toList_push, List.zipIdx_append, ← h.zipIdx]
    simp
  · rw [Array.toList_push, List.pairwise_append]
    refine ⟨h.distinct, List.pairwise_singleton _ _, fun a ha b hb s has hbs => ?_⟩
    obtain rfl := List.mem_singleton.mp hb
    exact (hnew s hbs).1 (has ▸ Array.mem_def.mpr ha)
  · intro s hs
    rcases Array.mem_push.mp hs with hs | hs
    · exact h.identifiers s hs
    · exact (hnew s hs.symm).2
  · rw [Array.size_push]
    exact Nat.succ_le_succ hsize

theorem size_eq (h : Listed groups names) : names.size = groups.length + 1 := by
  have hlength := congrArg List.length h.zipIdx
  rw [List.length_zipIdx, List.length_cons] at hlength
  exact hlength.symm

theorem whole (h : Listed groups names) : names[0]? = some none := by
  have hmem : (none, 0) ∈ names.toList.zipIdx := h.zipIdx ▸ List.mem_cons_self
  simpa using List.mem_zipIdx_iff_getElem?.mp hmem

theorem numbers (h : Listed groups names) :
    groups.map Prod.snd = List.range' 1 groups.length := by
  have hnumbers := congrArg (List.map Prod.snd) h.zipIdx
  rw [List.zipIdx_map_snd, Array.length_toList, h.size_eq, List.map_cons,
    List.range'_succ] at hnumbers
  exact (List.cons.inj hnumbers).2

theorem mem_iff (h : Listed groups names) :
    (name, i) ∈ groups ↔ 0 < i ∧ names[i]? = some name := by
  have hmem : (name, i) ∈ (none, 0) :: groups ↔ names[i]? = some name := by
    rw [h.zipIdx, List.mem_zipIdx_iff_getElem?, Array.getElem?_toList]
  constructor
  · intro hgroup
    have hi : i ∈ groups.map Prod.snd := List.mem_map.mpr ⟨_, hgroup, rfl⟩
    rw [h.numbers, List.mem_range'_1] at hi
    exact ⟨hi.1, hmem.mp (List.mem_cons_of_mem _ hgroup)⟩
  · rintro ⟨hi, hname⟩
    refine (List.mem_cons.mp (hmem.mpr hname)).resolve_left fun heq => ?_
    rw [(Prod.mk.inj heq).2] at hi
    exact Nat.lt_irrefl 0 hi

/-- No name occurs twice. -/
theorem eq_of_getElem? (h : Listed groups names) {s : String} (hi : names[i]? = some (some s))
    (hj : names[j]? = some (some s)) : i = j := by
  have hne : ∀ {a b : Nat}, names[a]? = some (some s) → names[b]? = some (some s) → ¬ a < b := by
    intro a b ha hb hlt
    obtain ⟨_, ha⟩ := Array.getElem?_eq_some_iff.mp ha
    obtain ⟨_, hb⟩ := Array.getElem?_eq_some_iff.mp hb
    exact List.pairwise_iff_getElem.mp h.distinct a b ‹_› ‹_› hlt s ha hb
  exact Nat.le_antisymm (Nat.not_lt.mp (hne hj hi)) (Nat.not_lt.mp (hne hi hj))

end Listed

namespace Reader

variable {r r' : Reader} {lx : Lexeme}

/-- **What has been read stays listed.** -/
theorem listed_step (h : Listed r.capturedSoFar r.names) (hnamed : WellNamed lx)
    (hstep : r.step lx = .ok r') : Listed r'.capturedSoFar r'.names := by
  rcases capturedSoFar_step hstep with ⟨hcaptured, hnames⟩ | ⟨name, hcaptured, hnames, hsize, hnew⟩
  · rw [hcaptured, hnames]
    exact h
  · rw [hcaptured, hnames]
    refine h.push hsize fun s hs => ?_
    obtain ⟨hfresh, o, htoken⟩ := hnew s hs
    exact ⟨hfresh, hnamed s o htoken⟩

end Reader

/-- **The groups of a pattern are those that its table lists.** -/
theorem listed_of_parse {source : String} {flags : Flags} {pattern : Pattern}
    (h : parse source flags = .ok pattern) : Listed pattern.node.captured pattern.groupNames := by
  obtain ⟨r, hr, hnode, hgroups, hnames⟩ := exists_reader_of_parse h
  have hcaptured : r.capturedSoFar = pattern.node.captured := by
    unfold Reader.capturedSoFar
    rw [hgroups, capturedBefore, List.nil_append, Branches.captured_finish hnode]
  have hlisted : Listed r.capturedSoFar r.names := by
    have hinit : Listed ({ flags } : Reader).capturedSoFar ({ flags } : Reader).names := .init
    refine Reader.foldlM_preserves (P := fun r => Listed r.capturedSoFar r.names)
      (fun lx hlx r r' h hstep => ?_) hinit hr
    exact Reader.listed_step h (wellNamed_of_mem_all lx hlx) hstep
  rwa [hcaptured, hnames] at hlisted

end Pattern

end LinearRegex
