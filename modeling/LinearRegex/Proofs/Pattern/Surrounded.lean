import LinearRegex.Proofs.Pattern.Steps
import LinearRegex.Proofs.Pattern.Written

/-!
# Reading in a surrounding

A pattern that stands in a group is read as on its own. What the reader has there is what it has on
its own, put into what it had in front of the group: the flags are those of the group, the group
numbers go on from those that have been given out, and the groups around stay open. Each lexeme
keeps it so, as long as neither the nesting nor the number of groups gets beyond its limit and no
name is given out twice.

Main statements: `Reader.step_within` for one lexeme, and `Reader.foldlM_within` for all of them.
-/

namespace LinearRegex

/-! ## Numbers of groups -/

namespace Node

mutual

/-- A piece with the number of each group increased. -/
def renumber (k : Nat) : Node → Node
  | .empty => .empty
  | .char c ignoreCase => .char c ignoreCase
  | .any => .any
  | .anyButNewline => .anyButNewline
  | .bracket b => .bracket b
  | .assertion a => .assertion a
  | .cat nodes => .cat (renumberAll k nodes)
  | .alt branches => .alt (renumberAll k branches)
  | .loop body q => .loop (renumber k body) q
  | .group body index name => .group (renumber k body) (index + k) name

/-- Pieces with the number of each group increased. -/
def renumberAll (k : Nat) : List Node → List Node
  | [] => []
  | n :: ns => renumber k n :: renumberAll k ns

end

variable {k : Nat}

theorem renumberAll_eq_map (ns : List Node) : renumberAll k ns = ns.map (renumber k) := by
  induction ns with
  | nil => rw [renumberAll, List.map_nil]
  | cons n ns ih => rw [renumberAll, ih, List.map_cons]

mutual

theorem renumber_zero : ∀ n : Node, n.renumber 0 = n
  | .empty => by rw [renumber]
  | .char _ _ => by rw [renumber]
  | .any => by rw [renumber]
  | .anyButNewline => by rw [renumber]
  | .bracket _ => by rw [renumber]
  | .assertion _ => by rw [renumber]
  | .cat nodes => by rw [renumber, renumberAll_zero nodes]
  | .alt branches => by rw [renumber, renumberAll_zero branches]
  | .loop body _ => by rw [renumber, renumber_zero body]
  | .group body _ _ => by rw [renumber, renumber_zero body, Nat.add_zero]

theorem renumberAll_zero : ∀ ns : List Node, renumberAll 0 ns = ns
  | [] => by rw [renumberAll]
  | n :: ns => by rw [renumberAll, renumber_zero n, renumberAll_zero ns]

end

theorem renumber_literal (c : Char) (flags : Flags) :
    (literal c flags).renumber k = literal c flags := by
  unfold literal
  split <;> rw [renumber]

theorem sequence_map (ns : List Node) :
    sequence (ns.map (renumber k)) = (sequence ns).renumber k := by
  match ns with
  | [] => exact (renumber.eq_def k .empty).symm
  | [n] => rfl
  | n :: m :: ns =>
    simp only [List.map_cons, sequence]
    rw [renumber, renumberAll_eq_map]
    rfl

theorem choice_map (ns : List Node) : choice (ns.map (renumber k)) = (choice ns).renumber k := by
  match ns with
  | [] => exact (renumber.eq_def k .empty).symm
  | [n] => rfl
  | n :: m :: ns =>
    simp only [List.map_cons, choice]
    rw [renumber, renumberAll_eq_map]
    rfl

end Node

namespace Pattern

/-! ## Limits -/

/-- How many groups are open behind a lexeme. -/
def depthBehind (depth : Nat) (lx : Lexeme) : Nat :=
  match lx.token with
  | .ok (.opening (.ok (.flags _))) => depth
  | .ok (.opening _) => depth + 1
  | .ok .closing => depth - 1
  | _ => depth

/-- How deep the parentheses of some lexemes are nested, inside of so many open groups. -/
def nestingFrom : Nat → List Lexeme → Nat
  | _, [] => 0
  | depth, lx :: lxs =>
    match lx.token with
    | .ok (.opening _) => max (depth + 1) (nestingFrom (depthBehind depth lx) lxs)
    | _ => nestingFrom (depthBehind depth lx) lxs

/-- Whether a lexeme opens a group that captures. -/
def captures (lx : Lexeme) : Bool :=
  match lx.token with
  | .ok (.opening (.ok .capture)) => true
  | .ok (.opening (.ok (.named _ _))) => true
  | _ => false

/-- A pattern that exceeds neither the limit on the nesting nor that on the number of groups. -/
structure WithinLimits (source : String) : Prop where
  nesting : nestingFrom 0 (Lexeme.all (.ofString source)) ≤ deepestNesting
  groups : (Lexeme.all (.ofString source)).countP captures ≤ mostGroups

/-! ## One lexeme -/

/-- A token that stands for a piece has nothing to do with groups. -/
theorem pieceOf?_spec {flags : Flags} {token : Token} {n : Node} (h : pieceOf? flags token = some n)
    (o d k depth : Nat) : depthBehind depth ⟨o, .ok token⟩ = depth ∧
      captures ⟨o, .ok token⟩ = false ∧ token.moved d = token ∧ n.renumber k = n := by
  cases token with
  | quantifier => simp [pieceOf?] at h
  | opening => simp [pieceOf?] at h
  | closing => simp [pieceOf?] at h
  | bar => simp [pieceOf?] at h
  | char c =>
    obtain rfl := Option.some.inj h
    exact ⟨rfl, rfl, rfl, Node.renumber_literal c flags⟩
  | dot =>
    obtain rfl := Option.some.inj h
    refine ⟨rfl, rfl, rfl, ?_⟩
    split <;> rw [Node.renumber]
  | _ =>
    obtain rfl := Option.some.inj h
    exact ⟨rfl, rfl, rfl, by first | rw [Node.renumber] | rw [Node.ofEscape, Node.renumber]⟩

namespace Reader

variable {r r' a : Reader} {lx : Lexeme} {lxs more : List Lexeme} {d o : Nat} {head : GroupHead}

/-- What a lexeme does to the open groups and to the names. -/
theorem step_counts (h : r.step lx = .ok r') :
    r'.groups.length = depthBehind r.groups.length lx ∧
      ∃ names : Array (Option String), r'.names = r.names ++ names ∧
        names.size = if captures lx then 1 else 0 := by
  cases stepped_of_step h with
  | @piece token n htoken hn h =>
    obtain ⟨hdepth, hcaptures, -, -⟩ := pieceOf?_spec hn lx.offset 0 0 r.groups.length
    rw [← htoken] at hdepth hcaptures
    subst h
    exact ⟨hdepth.symm, #[], Array.append_empty.symm, by rw [hcaptures]; rfl⟩
  | repeated htoken _ h =>
    subst h
    unfold depthBehind captures
    rw [htoken]
    exact ⟨rfl, #[], Array.append_empty.symm, rfl⟩
  | barred htoken h =>
    subst h
    unfold depthBehind captures
    rw [htoken]
    exact ⟨rfl, #[], Array.append_empty.symm, rfl⟩
  | closed htoken h =>
    unfold depthBehind captures
    rw [htoken]
    obtain ⟨body, g, groups, -, hgroups, rfl⟩ := closing_eq_ok h
    exact ⟨by rw [hgroups]; rfl, #[], Array.append_empty.symm, rfl⟩
  | @opened head htoken _ h =>
    unfold depthBehind captures
    rw [htoken]
    cases opened_of_opening h with
    | changed hhead h =>
      subst h
      subst hhead
      exact ⟨rfl, #[], Array.append_empty.symm, rfl⟩
    | grouped hhead h =>
      subst h
      rcases hhead with ⟨rfl, -⟩ | ⟨changes, rfl, -⟩ <;>
        exact ⟨rfl, #[], Array.append_empty.symm, rfl⟩
    | @captured name hhead _ h =>
      subst h
      rcases hhead with ⟨rfl, -⟩ | ⟨s, offset, rfl, -⟩ <;>
        exact ⟨rfl, #[name], Array.push_eq_append, rfl⟩

/-! ## Room -/

/-- A reader for which some lexemes do not exceed the limits. -/
structure Room (r : Reader) (lxs : List Lexeme) : Prop where
  nesting : nestingFrom r.groups.length lxs ≤ deepestNesting
  groups : r.names.size + lxs.countP captures ≤ mostGroups + 1

theorem Room.step (h : r.Room (lx :: lxs)) (hstep : r.step lx = .ok r') : r'.Room lxs := by
  obtain ⟨hdepth, names, hnames, hsize⟩ := step_counts hstep
  obtain ⟨hnesting, hgroups⟩ := h
  refine ⟨?_, ?_⟩
  · rw [hdepth]
    refine Nat.le_trans ?_ hnesting
    rw [nestingFrom]
    split
    · exact Nat.le_max_right _ _
    · exact Nat.le_refl _
  · rw [List.countP_cons] at hgroups
    rw [hnames, Array.size_append, hsize]
    omega

theorem Room.lt_deepestNesting (h : r.Room (lx :: lxs)) {head : Except PatternError GroupHead}
    (htoken : lx.token = .ok (.opening head)) : r.groups.length < deepestNesting := by
  have hnesting := h.nesting
  rw [nestingFrom, htoken] at hnesting
  exact Nat.le_trans (Nat.le_max_left _ _) hnesting

/-- Where there is room for a group that captures, it is opened. -/
theorem Room.openCapture_eq (h : r.Room (lx :: lxs)) (hcaptures : captures lx = true) (o : Nat)
    (name : Option String) : r.openCapture o name = .ok
      { r with
        names := r.names.push name
        groups := ⟨o, some (r.names.size, name), r.flags, r.branches⟩ :: r.groups
        branches := {} } := by
  have hgroups := h.groups
  rw [List.countP_cons, if_pos hcaptures] at hgroups
  exact if_neg (by omega)

/-- A lexeme that is taken in does not exceed the limits. -/
theorem step_limits (h : r.step lx = .ok r') :
    (∀ head, lx.token = .ok (.opening head) → r.groups.length < deepestNesting) ∧
      (captures lx = true → r.names.size ≤ mostGroups) := by
  cases stepped_of_step h with
  | @piece token n htoken hn _ =>
    obtain ⟨-, hcaptures, -, -⟩ := pieceOf?_spec hn lx.offset 0 0 0
    rw [← htoken] at hcaptures
    refine ⟨fun head hhead => ?_, fun h => absurd (h.symm.trans hcaptures) (by simp)⟩
    obtain rfl := Except.ok.inj (htoken.symm.trans hhead)
    simp [pieceOf?] at hn
  | repeated htoken => simp [captures, htoken]
  | closed htoken => simp [captures, htoken]
  | barred htoken => simp [captures, htoken]
  | @opened head htoken hdepth h =>
    refine ⟨fun _ _ => hdepth, fun hcaptures => ?_⟩
    cases opened_of_opening h with
    | changed hhead => simp [captures, htoken, hhead] at hcaptures
    | grouped hhead =>
      rcases hhead with ⟨rfl, -⟩ | ⟨changes, rfl, -⟩ <;> simp [captures, htoken] at hcaptures
    | captured _ hsize => exact hsize

end Reader

/-! ## Surroundings -/

/-- An alternation that is read so many bytes further on, the number of each group increased. -/
def Branches.within (b : Branches) (d k : Nat) : Branches :=
  { b with
    complete := b.complete.map (.renumber k)
    pieces := b.pieces.map (.renumber k)
    lastBar := b.lastBar.map (· + d)
    emptyAt := b.emptyAt.map (· + d) }

/-- An open group that is read so many bytes further on, with the number of each group increased. -/
def OpenGroup.within (g : OpenGroup) (d k : Nat) : OpenGroup where
  offset := g.offset + d
  capture := g.capture.map fun (index, name) => (index + k, name)
  flags := g.flags
  around := g.around.within d k

/-- A reader in the surrounding of another one: the flags are its own, the groups of the other have
been given out and opened before. -/
def Reader.within (r : Reader) (d : Nat) (a : Reader) : Reader where
  flags := r.flags
  names := a.names ++ r.names.extract 1
  groups := r.groups.map (·.within d (a.names.size - 1)) ++ a.groups
  branches := r.branches.within d (a.names.size - 1)

namespace Branches

variable {b b' : Branches} {n : Node} {q : Quantifier} {d k : Nat}

theorem within_push (b : Branches) (n : Node) (d k : Nat) :
    (b.push n).within d k = (b.within d k).push (n.renumber k) := rfl

theorem repeatLast?_within (h : b.repeatLast? q = some b') :
    (b.within d k).repeatLast? q = some (b'.within d k) := by
  obtain ⟨hrepeatable, n, ns, hpieces, rfl⟩ := repeatLast?_eq_some h
  have hwithin : (b.within d k).pieces = n.renumber k :: ns.map (.renumber k) := by
    unfold within
    rw [hpieces]
    rfl
  unfold repeatLast?
  rw [show (b.within d k).repeatable = true from hrepeatable, hwithin]
  unfold within
  rw [List.map_cons, Node.renumber]

theorem bar_within (b : Branches) (d k o : Nat) :
    (b.within d k).bar (o + d) = (b.bar o).within d k := by
  obtain ⟨complete, pieces, started, repeatable, lastBar, emptyAt⟩ := b
  unfold bar within
  simp only [List.map_cons, ← Node.sequence_map, List.map_reverse, Option.map_some]
  cases emptyAt with
  | some o => rfl
  | none =>
    cases started with
    | true => rfl
    | false => cases lastBar <;> rfl

theorem finish_within (h : b.finish = .ok n) : (b.within d k).finish = .ok (n.renumber k) := by
  obtain ⟨complete, pieces, started, repeatable, lastBar, emptyAt⟩ := b
  unfold finish within at *
  cases emptyAt with
  | some o => simp at h
  | none =>
    have hblame : (if started then none else lastBar.map (· + d)) =
        (if started then none else lastBar).map (· + d) := by
      cases started <;> rfl
    simp only [Option.none_or, Option.map_none, hblame] at h ⊢
    cases hlast : (if started then none else lastBar) with
    | some o =>
      rw [hlast] at h
      simp at h
    | none =>
      rw [hlast] at h
      obtain rfl := Except.ok.inj h
      dsimp only [Option.map_none]
      rw [← Node.choice_map]
      unfold nodes
      rw [List.map_reverse, List.map_cons, ← Node.sequence_map, List.map_reverse]

end Branches

namespace Reader

variable {r r' a : Reader} {lx : Lexeme} {lxs more : List Lexeme} {d o : Nat} {head : GroupHead}

theorem within_push (r : Reader) (n : Node) (d : Nat) (a : Reader) :
    (r.push n).within d a = (r.within d a).push (n.renumber (a.names.size - 1)) := rfl

/-- The names that are given out go behind those of the surrounding. -/
theorem extract_push {names : Array (Option String)} (h : 0 < names.size) (name : Option String) :
    (names.push name).extract 1 = (names.extract 1).push name := by
  rw [Array.extract_push, if_neg (by rw [Array.size_push]; omega), if_pos (Nat.succ_le_of_lt h)]

theorem size_within (hr : 0 < r.names.size) (ha : 0 < a.names.size) :
    (r.within d a).names.size = r.names.size + (a.names.size - 1) := by
  unfold within
  simp only [Array.size_append, Array.size_extract]
  omega

/-- A name that has been given out neither in a group nor in front of it is new in the surrounding. -/
theorem not_contains_within {name : String} (hr : some name ∉ r.names)
    (ha : some name ∉ a.names) : ¬ (r.within d a).names.contains (some name) = true := by
  rw [Array.contains_iff_mem]
  unfold within
  intro hmem
  rcases Array.mem_append.mp hmem with hmem | hmem
  · exact ha hmem
  · obtain ⟨i, hi, hname⟩ := Array.mem_extract_iff_getElem.mp hmem
    exact hr (hname ▸ Array.getElem_mem _)

/-- A group that captures is opened in a surrounding. -/
theorem within_openCapture (hr : 0 < r.names.size) (ha : 0 < a.names.size)
    (name : Option String) :
    ({ r with
        names := r.names.push name
        groups := ⟨o, some (r.names.size, name), r.flags, r.branches⟩ :: r.groups
        branches := {} } : Reader).within d a =
      { r.within d a with
        names := (r.within d a).names.push name
        groups := ⟨o + d, some ((r.within d a).names.size, name), r.flags,
          (r.within d a).branches⟩ :: (r.within d a).groups
        branches := {} } := by
  rw [size_within hr ha]
  unfold within
  simp only [extract_push hr, Array.append_push, List.map_cons, List.cons_append]
  rfl

theorem closing_within (h : r.closing o = .ok r') :
    (r.within d a).closing (o + d) = .ok (r'.within d a) := by
  obtain ⟨body, g, groups, hbody, hgroups, rfl⟩ := closing_eq_ok h
  have hwithin : (r.within d a).branches.finish = .ok (body.renumber (a.names.size - 1)) :=
    Branches.finish_within hbody
  have hgroupsWithin : (r.within d a).groups = g.within d (a.names.size - 1) ::
      (groups.map (·.within d (a.names.size - 1)) ++ a.groups) := by
    unfold within
    rw [hgroups]
    rfl
  unfold closing
  rw [hwithin]
  dsimp only
  rw [hgroupsWithin]
  obtain ⟨offset, capture, flags, around⟩ := g
  cases capture with
  | none => rfl
  | some capture =>
    obtain ⟨index, name⟩ := capture
    unfold within OpenGroup.within OpenGroup.piece
    dsimp only [Option.map_some]
    rw [Branches.within_push, Node.renumber]

/-- **A lexeme does the same in a surrounding**, if there is room for it and no name is given out
that has been given out before. -/
theorem step_within (h : r.step lx = .ok r') (hroom : (r.within d a).Room (lx.moved d :: lxs))
    (hfresh : ∀ name, some name ∈ a.names → some name ∉ r'.names) (hr : 0 < r.names.size)
    (ha : 0 < a.names.size) : (r.within d a).step (lx.moved d) = .ok (r'.within d a) := by
  have hstepped := stepped_of_step h
  clear h
  obtain ⟨o, token⟩ := lx
  cases hstepped with
  | @piece token n htoken hn h =>
    obtain rfl : _ = Except.ok token := htoken
    obtain ⟨-, -, hmoved, hrenumber⟩ := pieceOf?_spec hn o d (a.names.size - 1) 0
    subst h
    rw [within_push, hrenumber]
    unfold Lexeme.moved
    dsimp only [Except.map]
    rw [hmoved]
    exact step_of_piece (r := r.within d a) hn _
  | @repeated q branches htoken hbranches h =>
    obtain rfl : token = _ := htoken
    subst h
    have hwithin : (r.within d a).branches.repeatLast? q =
        some (branches.within d (a.names.size - 1)) := Branches.repeatLast?_within hbranches
    unfold Lexeme.moved step
    dsimp only [Except.map, Token.moved]
    rw [hwithin]
    rfl
  | closed htoken h =>
    obtain rfl : token = _ := htoken
    exact closing_within h
  | barred htoken h =>
    obtain rfl : token = _ := htoken
    subst h
    have hbar : (r.within d a).branches.bar (o + d) =
        (r.branches.bar o).within d (a.names.size - 1) := Branches.bar_within _ _ _ _
    unfold Lexeme.moved step
    dsimp only [Except.map, Token.moved]
    rw [hbar]
    rfl
  | @opened head htoken _ h =>
    obtain rfl : token = _ := htoken
    have hdepth : (r.within d a).groups.length < deepestNesting := hroom.lt_deepestNesting rfl
    refine (step_opening hdepth (o + d) (head.moved d)).trans ?_
    cases opened_of_opening h with
    | changed hhead h =>
      subst h
      subst hhead
      rfl
    | grouped hhead h =>
      subst h
      rcases hhead with ⟨rfl, rfl⟩ | ⟨changes, rfl, rfl⟩ <;> rfl
    | captured hhead _ h =>
      subst h
      rw [within_openCapture hr ha]
      rcases hhead with ⟨rfl, rfl⟩ | ⟨name, offset, rfl, rfl, hnew⟩
      · exact hroom.openCapture_eq rfl _ _
      · have hnot : ¬ (r.within d a).names.contains (some name) = true :=
          not_contains_within hnew fun hmem => hfresh name hmem Array.mem_push_self
        unfold GroupHead.moved opening
        dsimp only
        rw [if_neg hnot]
        exact hroom.openCapture_eq rfl _ _

/-! ## All lexemes -/

/-- Names are never taken back. -/
theorem exists_names_of_foldlM (h : lxs.foldlM step r = .ok r') :
    ∃ names : Array (Option String), r'.names = r.names ++ names := by
  induction lxs generalizing r with
  | nil =>
    obtain rfl := Except.ok.inj h
    exact ⟨#[], Array.append_empty.symm⟩
  | cons lx lxs ih =>
    obtain ⟨r₁, h₁, h⟩ := exists_step_of_foldlM h
    obtain ⟨-, names, hnames, -⟩ := step_counts h₁
    obtain ⟨names', hnames'⟩ := ih h
    exact ⟨names ++ names', by rw [hnames', hnames, Array.append_assoc]⟩

/-- There is room for what has been read. -/
theorem room_of_foldlM (h : lxs.foldlM step r = .ok r') (hr : r.names.size ≤ mostGroups + 1) :
    r.Room lxs := by
  induction lxs generalizing r with
  | nil => exact ⟨Nat.zero_le _, hr⟩
  | cons lx lxs ih =>
    obtain ⟨r₁, h₁, h⟩ := exists_step_of_foldlM h
    obtain ⟨hdepth, names, hnames, hsize⟩ := step_counts h₁
    obtain ⟨hopening, hcaptures⟩ := step_limits h₁
    have hr₁ : r₁.names.size = r.names.size + if captures lx then 1 else 0 := by
      rw [hnames, Array.size_append, hsize]
    have hle : r₁.names.size ≤ mostGroups + 1 := by
      rw [hr₁]
      split
      · next hlx => exact Nat.succ_le_succ (hcaptures hlx)
      · exact hr
    obtain ⟨hnesting, hgroups⟩ := ih h hle
    rw [hdepth] at hnesting
    refine ⟨?_, ?_⟩
    · rw [nestingFrom]
      split
      · next head htoken => exact Nat.max_le.mpr ⟨hopening head htoken, hnesting⟩
      · exact hnesting
    · rw [List.countP_cons]
      omega

/-- **What is read on its own is read in a surrounding**, if there is room for it there and no name
is given out that has been given out before. -/
theorem foldlM_within (h : lxs.foldlM step r = .ok r')
    (hroom : (r.within d a).Room (lxs.map (.moved d) ++ more))
    (hfresh : ∀ name, some name ∈ a.names → some name ∉ r'.names) (hr : 0 < r.names.size)
    (ha : 0 < a.names.size) :
    (lxs.map (.moved d)).foldlM step (r.within d a) = .ok (r'.within d a) ∧
      (r'.within d a).Room more := by
  induction lxs generalizing r with
  | nil =>
    obtain rfl := Except.ok.inj h
    exact ⟨rfl, hroom⟩
  | cons lx lxs ih =>
    obtain ⟨r₁, h₁, h⟩ := exists_step_of_foldlM h
    obtain ⟨-, names, hnames, -⟩ := step_counts h₁
    obtain ⟨names', hnames'⟩ := exists_names_of_foldlM h
    have hfresh₁ : ∀ name, some name ∈ a.names → some name ∉ r₁.names :=
      fun name hname hmem => hfresh name hname (hnames' ▸ Array.mem_append_left _ hmem)
    have hstep := step_within h₁ hroom hfresh₁ hr ha
    have hr₁ : 0 < r₁.names.size := by
      rw [hnames, Array.size_append]
      omega
    obtain ⟨hmore, hroom'⟩ := ih h (hroom.step hstep) hr₁
    refine ⟨?_, hroom'⟩
    rw [List.map_cons, List.foldlM_cons, hstep]
    exact hmore

/-- What has been read is in order. -/
theorem clean_of_foldlM (h : lxs.foldlM step r = .ok r') : ∀ lx ∈ lxs, lx.Clean := by
  induction lxs generalizing r with
  | nil => simp
  | cons lx lxs ih =>
    obtain ⟨r₁, h₁, h⟩ := exists_step_of_foldlM h
    refine List.forall_mem_cons.mpr ⟨?_, ih h⟩
    cases stepped_of_step h₁ with
    | @piece token n htoken hn _ =>
      refine ⟨token, htoken, ?_⟩
      rintro e rfl
      simp [pieceOf?] at hn
    | repeated htoken => exact ⟨_, htoken, by simp [Token.Clean]⟩
    | opened htoken => exact ⟨_, htoken, by simp [Token.Clean]⟩
    | closed htoken => exact ⟨_, htoken, by simp [Token.Clean]⟩
    | barred htoken => exact ⟨_, htoken, by simp [Token.Clean]⟩

end Reader

/-! ## Whole patterns -/

/-- **A pattern that is accepted is within the limits.** -/
theorem withinLimits_of_parse {source : String} {flags : Flags} {pattern : Pattern}
    (h : parse source flags = .ok pattern) : WithinLimits source := by
  obtain ⟨r, hr, -⟩ := exists_reader_of_parse h
  obtain ⟨hnesting, hgroups⟩ := Reader.room_of_foldlM hr (Nat.le_add_left 1 _)
  refine ⟨hnesting, ?_⟩
  have hsize : ({ flags } : Reader).names.size = 1 := rfl
  omega

/-- The first group is the whole match and has no name. -/
theorem append_extract_groupNames {source : String} {flags : Flags} {pattern : Pattern}
    (h : parse source flags = .ok pattern) :
    #[none] ++ pattern.groupNames.extract 1 = pattern.groupNames := by
  obtain ⟨r, hr, -, -, hgroups⟩ := exists_reader_of_parse h
  obtain ⟨names, hnames⟩ := Reader.exists_names_of_foldlM hr
  have heq : pattern.groupNames = #[none] ++ names := hgroups ▸ hnames
  rw [heq, Array.extract_append]
  simp

/-! ## Between parentheses -/

namespace Reader

variable {r a : Reader} {g : OpenGroup} {groups : List OpenGroup} {source : String}
variable {pattern : Pattern} {o : Nat} {more : List Char}

/-- The reader behind a group with some pattern in it, by what it has behind the head of the group:
the group and those around it. -/
def behind (a : Reader) (g : OpenGroup) (groups : List OpenGroup) (pattern : Pattern) : Reader where
  flags := g.flags
  names := a.names ++ pattern.groupNames.extract 1
  groups := groups
  branches := g.around.push (g.piece (pattern.node.renumber (a.names.size - 1)))

theorem within_init (ha : a.branches = {}) : ({ flags := a.flags } : Reader).within o a = a := by
  obtain ⟨flags, names, groups, branches⟩ := a
  obtain rfl : branches = {} := ha
  unfold within
  simp [Branches.within]

/-- **A pattern between parentheses** becomes a piece of the alternation around it. -/
theorem run_enclosed (hparse : parse source a.flags = .ok pattern) (hbranches : a.branches = {})
    (hgroups : a.groups = g :: groups)
    (hroom : a.Room (Lexeme.all ⟨o, source.toList ++ ')' :: more⟩))
    (hfresh : ∀ name, some name ∈ a.names → some name ∉ pattern.groupNames)
    (ha : 0 < a.names.size) :
    ∃ o', a.run ⟨o, source.toList ++ ')' :: more⟩ = (a.behind g groups pattern).run ⟨o', more⟩ ∧
      (a.behind g groups pattern).Room (Lexeme.all ⟨o', more⟩) := by
  obtain ⟨r, hr, hnode, hnil, hnames⟩ := exists_reader_of_parse hparse
  have hsource : (Source.ofString source).enclosed o more = ⟨o, source.toList ++ ')' :: more⟩ := by
    unfold Source.enclosed Source.ofString
    rw [Nat.zero_add]
  obtain ⟨e, hall⟩ := Lexeme.all_enclosed (clean_of_foldlM hr) o more
  rw [hsource] at hall
  rw [hall] at hroom
  have hinit : ({ flags := a.flags } : Reader).within o a = a := within_init hbranches
  obtain ⟨hrun, hroom'⟩ := foldlM_within hr (hinit.symm ▸ hroom) (hnames ▸ hfresh) Nat.one_pos ha
  rw [hinit] at hrun
  have hfinish : (r.within o a).branches.finish =
      .ok (pattern.node.renumber (a.names.size - 1)) := Branches.finish_within hnode
  have hopen : (r.within o a).groups = g :: groups := by
    unfold within
    rw [hnil, hgroups]
    rfl
  have hclose : (r.within o a).step ⟨e, .ok .closing⟩ = .ok (a.behind g groups pattern) := by
    have hclosing : (r.within o a).step ⟨e, .ok .closing⟩ = (r.within o a).closing e := rfl
    rw [hclosing, closing, hfinish]
    dsimp only
    rw [hopen]
    unfold behind
    rw [← hnames]
    rfl
  refine ⟨e + 1, ?_, hroom'.step hclose⟩
  rw [run_eq_foldlM, run_eq_foldlM, hall, List.foldlM_append, hrun]
  dsimp only [bind, Except.bind]
  rw [List.foldlM_cons, hclose]
  rfl

end Reader

end Pattern

end LinearRegex
