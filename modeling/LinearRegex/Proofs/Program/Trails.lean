import LinearRegex.Proofs.Program.Choices

/-!
# Code prefers the trails that are tried first

The choices of a piece are the splits in its code, in the same order. So a thread that enters the
code of a piece stands for the trails through the piece, if it has made the choices of the trail it
is on: it may be replaced by threads behind the code, one for each trail, in the order in which they
are tried. This holds of loops whose bodies can match the empty text as well.

Main statements: `leadsOn_trails`, and `Compiled.firstTrail_cases` for a whole program.
-/

namespace LinearRegex

namespace Program

variable {p : Program} {a b c first : Nat} {t v : Trail} {ts : List Trail}
variable {others others' : List (Nat × Trail)} {o : Option Slots}

/-! ## Runs along a trail -/

/-- The runs that go on along a trail: they make no choice twice, and none again that the trail has
made at its place. -/
def Along (p : Program) (t : Trail) (r : List Config) : Prop := p.Distinct t.made t.cur r

theorem along_accept (h : p.IsAccept ⟨a, t.cur⟩) : p.Along t [⟨a, t.cur⟩] := by
  have hchoice : p.isChoice a = false := isChoice_of_instr h
  simp [Along, Distinct, hchoice]

/-- No run goes on along a trail that comes to a choice it has made. -/
theorem not_along_of_mem (hi : p.isChoice a = true) (hold : p.choicesBefore a ∈ t.made) :
    ∀ r, p.Accepts ⟨a, t.cur⟩ r → ¬ p.Along t r := by
  rintro r hr ⟨-, hmade⟩
  exact hmade _ hr.mem_self hi rfl hold

/-- A choice that is new may be made along a trail, and counts as made from then on. -/
theorem along_cons_of_split {primary secondary : Nat} {r : List Config}
    (hi : p.instrs[a]? = some (.split primary secondary)) (hnew : p.choicesBefore a ∉ t.made) :
    p.Along (t.mark (p.choicesBefore a)) r ↔ p.Along t (⟨a, t.cur⟩ :: r) := by
  have hchoice : p.isChoice (⟨a, t.cur⟩ : Config).ip = true := isChoice_of_instr hi
  unfold Along
  rw [distinct_cons_of_choice hchoice rfl]
  exact (and_iff_right hnew).symm

/-! ## What comes of trails -/

/-- What comes of trails to be followed from instructions on, the preferred one first: the first
with a run along it decides. -/
inductive Decides (p : Program) : List (Nat × Trail) → Option Slots → Prop
  | nil : Decides p [] none
  | run {ip : Nat} {t : Trail} {others : List (Nat × Trail)} {r : List Config}
    (h : p.Preferred (p.Along t) ⟨ip, t.cur⟩ r) :
    Decides p ((ip, t) :: others) (some (p.recorded r t.slots))
  | skip {ip : Nat} {t : Trail} {others : List (Nat × Trail)} {o : Option Slots}
    (h : ∀ r, p.Accepts ⟨ip, t.cur⟩ r → ¬ p.Along t r) (rest : Decides p others o) :
    Decides p ((ip, t) :: others) o

/-- Trails may be replaced behind others. -/
theorem Decides.append_congr (h : p.Decides (others ++ others') o)
    {others'' : List (Nat × Trail)} (replace : ∀ o, p.Decides others' o → p.Decides others'' o) :
    p.Decides (others ++ others'') o := by
  induction others generalizing o with
  | nil => exact replace o h
  | cons x others ih =>
    rw [List.cons_append] at h ⊢
    cases h with
    | run h => exact .run h
    | skip hnone h => exact .skip hnone (ih h)

/-- Where there is only one way on, a trail may be followed there. -/
theorem Decides.of_successors_singleton (hs : p.successors ⟨a, t.cur⟩ = [⟨c, v.cur⟩])
    (hslots : p.recordAt ⟨a, t.cur⟩ t.slots = v.slots)
    (hstep : ∀ r, p.Accepts ⟨c, v.cur⟩ r → (p.Along v r ↔ p.Along t (⟨a, t.cur⟩ :: r)))
    (h : p.Decides ((c, v) :: others) o) : p.Decides ((a, t) :: others) o := by
  cases h with
  | run h =>
    rw [← hslots, ← recorded_cons]
    refine .run (h.cons (by rw [hs]; exact List.mem_cons_self) ?_ ?_)
    · rw [hs]
      simpa using hstep
    · rw [hs]
      simp
  | skip hnone h =>
    refine .skip ?_ h
    intro r hr ha
    obtain ⟨s, rfl, hs⟩ := hr.exists_tail hs
    exact hnone s hs ((hstep s hs).mpr ha)

/-- At a split where the choice is new, a trail may be followed to both targets. -/
theorem Decides.of_split {primary secondary : Nat}
    (hi : p.instrs[a]? = some (.split primary secondary)) (hnew : p.choicesBefore a ∉ t.made)
    (h : p.Decides ((primary, t.mark (p.choicesBefore a)) ::
      (secondary, t.mark (p.choicesBefore a)) :: others) o) :
    p.Decides ((a, t) :: others) o := by
  have hrecord : p.recordAt ⟨a, t.cur⟩ t.slots = t.slots := recordAt_of_instr hi (by simp)
  have hmem : ∀ e, e ∈ p.successors ⟨a, t.cur⟩ ↔ e = ⟨primary, t.cur⟩ ∨ e = ⟨secondary, t.cur⟩ := by
    intro e
    rw [successors_split hi, List.mem_cons, List.mem_singleton]
  -- A run over either target is the first one here, if no run before it goes along.
  have run : ∀ d ∈ p.successors ⟨a, t.cur⟩, ∀ r,
      p.Preferred (p.Along (t.mark (p.choicesBefore a))) d r →
      (∀ e ∈ p.successors ⟨a, t.cur⟩, e ≠ d → p.instrs[a]? = some (.split d.ip e.ip) ∨
        ∀ s, p.Accepts e s → ¬ p.Along (t.mark (p.choicesBefore a)) s) →
      p.Decides ((a, t) :: others) (some (p.recorded r t.slots)) := by
    intro d hd r hr hothers
    have hcons := hr.cons hd (fun _ _ _ _ => along_cons_of_split hi hnew) hothers
    have hrun : p.Decides ((a, t) :: others) (some (p.recorded (⟨a, t.cur⟩ :: r) t.slots)) :=
      .run hcons
    rwa [recorded_cons, hrecord] at hrun
  cases h with
  | run h =>
    refine run _ ((hmem _).mpr (Or.inl rfl)) _ h ?_
    intro e he hne
    rcases (hmem e).mp he with rfl | rfl
    · exact absurd rfl hne
    · exact Or.inl hi
  | skip hnone h =>
    cases h with
    | run h =>
      refine run _ ((hmem _).mpr (Or.inr rfl)) _ h ?_
      intro e he hne
      rcases (hmem e).mp he with rfl | rfl
      · exact Or.inr hnone
      · exact absurd rfl hne
    | skip hnone' h =>
      refine .skip ?_ h
      intro r hr ha
      obtain ⟨e, s, rfl, he, hs⟩ := hr.exists_step fun h => by simp [IsAccept, hi] at h
      have ha := (along_cons_of_split hi hnew).mpr ha
      rcases (hmem e).mp he with rfl | rfl
      · exact hnone s hs ha
      · exact hnone' s hs ha

/-! ## Trails that lead on -/

/-- A trail at one instruction may be replaced by trails at another one. -/
def LeadsOn (p : Program) (a b : Nat) (t : Trail) (ts : List Trail) : Prop :=
  ∀ others o, p.Decides (ts.map (fun v => (b, v)) ++ others) o → p.Decides ((a, t) :: others) o

namespace LeadsOn

theorem refl (p : Program) (a : Nat) (t : Trail) : p.LeadsOn a a t [t] := fun _ _ h => h

theorem trans {f : Trail → List Trail} (h : p.LeadsOn a b t ts)
    (h' : ∀ v ∈ ts, p.LeadsOn b c v (f v)) : p.LeadsOn a c t (ts.flatMap f) := by
  intro others o ho
  refine h others o ?_
  clear h
  induction ts generalizing o with
  | nil => exact ho
  | cons v ts ih =>
    rw [List.flatMap_cons, List.map_append, List.append_assoc] at ho
    rw [List.map_cons, List.cons_append]
    refine h' v List.mem_cons_self _ o (ho.append_congr fun o ho => ?_)
    exact ih (fun v hv => h' v (List.mem_cons_of_mem _ hv)) o ho

/-- A trail along which there is no run leads nowhere. -/
theorem nil (h : ∀ r, p.Accepts ⟨a, t.cur⟩ r → ¬ p.Along t r) : p.LeadsOn a b t [] :=
  fun _ _ ho => .skip h ho

theorem nil_of_successors {ins : Instr} (hi : p.instrs[a]? = some ins) (hne : ins ≠ .accept)
    (hs : p.successors ⟨a, t.cur⟩ = []) : p.LeadsOn a b t [] := by
  refine nil ?_
  intro r hr _
  obtain ⟨d, s, -, hd, -⟩ := hr.exists_step fun h => hne (Option.some.inj (hi.symm.trans h))
  rw [hs] at hd
  simp at hd

/-- An instruction where there is no choice leads on to the one behind it. -/
theorem step {ins : Instr} (hi : p.instrs[a]? = some ins) (hc : ins.isSplit = false)
    (hs : p.successors ⟨a, t.cur⟩ = [⟨c, t.cur⟩]) (hcur : v.cur = t.cur) (hmade : v.made = t.made)
    (hslots : p.recordAt ⟨a, t.cur⟩ t.slots = v.slots) (h : p.LeadsOn c b v ts) :
    p.LeadsOn a b t ts := by
  have hchoice : p.isChoice (⟨a, t.cur⟩ : Config).ip = false := (isChoice_of_instr hi).trans hc
  intro others o ho
  refine .of_successors_singleton (hcur ▸ hs) hslots (fun r _ => ?_) (h others o ho)
  unfold Along
  rw [distinct_cons_of_not_choice hchoice, hcur, hmade]

theorem jump {target : Nat} (hi : p.instrs[a]? = some (.jump target))
    (h : p.LeadsOn target b t ts) : p.LeadsOn a b t ts :=
  h.step hi rfl (successors_jump hi) rfl rfl (recordAt_of_instr hi (by simp))

theorem save {slot : Nat} (hi : p.instrs[a]? = some (.save slot))
    (h : p.LeadsOn (a + 1) b (t.record slot) ts) : p.LeadsOn a b t ts :=
  step (v := t.record slot) hi rfl (successors_save hi) rfl rfl (recordAt_save hi) h

/-- A split leads where its primary target leads, and then where its secondary one does, unless the
choice has been made before. -/
theorem split {primary secondary : Nat} {f g : Trail → List Trail}
    (hi : p.instrs[a]? = some (.split primary secondary)) (hfirst : p.choicesBefore a = first)
    (h : p.LeadsOn primary b (t.mark first) (f (t.mark first)))
    (h' : p.LeadsOn secondary b (t.mark first) (g (t.mark first))) :
    p.LeadsOn a b t (t.choose first fun t => f t ++ g t) := by
  subst hfirst
  unfold Trail.choose
  split
  · next hold => exact nil (not_along_of_mem (isChoice_of_instr hi) hold)
  · next hnew =>
    intro others o ho
    rw [List.map_append, List.append_assoc] at ho
    refine .of_split hi hnew (h _ o (ho.append_congr fun o ho => ?_))
    exact h' others o ho

theorem loopSplit {greedy : Bool} {exit head : Nat} {more : Trail → List Trail}
    (hi : p.instrs[head]? = some (loopSplit greedy exit head))
    (hfirst : p.choicesBefore head = first)
    (h : p.LeadsOn (head + 1) exit (t.mark first) (more (t.mark first))) :
    p.LeadsOn head exit t
      (t.choose first fun t => if greedy then more t ++ [t] else t :: more t) := by
  unfold LinearRegex.loopSplit at hi
  cases greedy with
  | true => exact split (g := fun t => [t]) hi hfirst h (.refl p exit _)
  | false => exact split (f := fun t => [t]) hi hfirst (.refl p exit _) h

end LeadsOn

theorem leadsOn_take {ins : Instr} {accepts : Char → Bool} (hi : p.instrs[a]? = some ins)
    (hw : ins.waits = true) (hne : ins ≠ .accept) (ht : ∀ ch, p.takes ch ins = accepts ch) :
    p.LeadsOn a (a + 1) t (t.take accepts) := by
  have hsave : ∀ slot, ins ≠ .save slot := by
    rintro slot rfl
    simp [Instr.waits] at hw
  have hchoice : p.isChoice (⟨a, t.cur⟩ : Config).ip = false :=
    (isChoice_of_instr hi).trans (Instr.isSplit_of_waits hw)
  have hs := successors_of_waits (c := ⟨a, t.cur⟩) hi hw
  rw [show (p.takes · ins) = accepts from funext ht] at hs
  unfold Trail.take Way.take
  split
  · next hany =>
    rw [if_pos hany] at hs
    obtain ⟨ch, hch, -⟩ := (Option.any_eq_true _ _).mp hany
    intro others o ho
    refine .of_successors_singleton (v := ⟨⟨t.cur.next, t.slots⟩, []⟩) hs
      (recordAt_of_instr hi hsave) (fun r hr => ?_) ho
    unfold Along
    rw [distinct_cons_of_not_choice hchoice]
    exact (distinct_of_rest_lt hr (Cursor.rest_next_lt hch)).symm
  · next hany =>
    rw [if_neg hany] at hs
    exact .nil_of_successors hi hne hs

theorem leadsOn_assertion {s : Assertion} (hi : p.instrs[a]? = some (.assertion s)) :
    p.LeadsOn a (a + 1) t (if s.holds t.cur then [t] else []) := by
  have hs := successors_assertion (c := ⟨a, t.cur⟩) hi
  split
  · next hholds =>
    rw [if_pos hholds] at hs
    exact (LeadsOn.refl p (a + 1) t).step hi rfl hs rfl rfl (recordAt_of_instr hi (by simp))
  · next hholds =>
    rw [if_neg hholds] at hs
    exact .nil_of_successors hi (by simp) hs

theorem leadsOn_group {body : Node} {index : Nat} {name : Option String}
    (hholds : p.code.Holds (.group body index name) a b)
    (hbody : ∀ last, p.code.Holds body (a + 1) last → p.LeadsOn (a + 1) last
      (t.record (2 * index)) (body.trails (p.choicesBefore (a + 1)) (t.record (2 * index)))) :
    p.LeadsOn a b t ((Node.group body index name).trails (p.choicesBefore a) t) := by
  rw [Code.Holds] at hholds
  obtain ⟨last, hopen, hinner, hclose, rfl⟩ := hholds
  have hnext : p.choicesBefore (a + 1) = p.choicesBefore a := choicesBefore_succ hopen
  rw [Node.trails, List.map_eq_flatMap, ← hnext]
  refine .save hopen ((hbody last hinner).trans fun v _ => ?_)
  exact .save hclose (.refl p (last + 1) _)

/-! ## Loops -/

section

variable {H : Nat → Nat → Prop} {body : Nat → Trail → List Trail} {size m : Nat} {greedy : Bool}
variable {exit head back : Nat}

theorem leadsOn_mandatory (hsize : ∀ a b, H a b → p.choicesBefore b = p.choicesBefore a + size)
    (hp : ∀ a b t, H a b → p.LeadsOn a b t (body (p.choicesBefore a) t)) (hH : Iterate H m a b) :
    p.LeadsOn a b t (Trail.mandatory size body m (p.choicesBefore a) t) := by
  induction m generalizing a t with
  | zero =>
    obtain rfl : a = b := hH
    exact .refl p a t
  | succ m ih =>
    obtain ⟨c, hc, hH⟩ := hH
    refine (hp a c t hc).trans fun v _ => ?_
    rw [← hsize a c hc]
    exact ih hH

theorem leadsOn_optional (hsize : ∀ a b, H a b → p.choicesBefore b = p.choicesBefore a + size)
    (hp : ∀ a b t, H a b → p.LeadsOn a b t (body (p.choicesBefore a) t))
    (hH : p.code.HoldsOptions greedy exit H m head) :
    p.LeadsOn head exit t (Trail.optional greedy size body m (p.choicesBefore head) t) := by
  induction m generalizing head t with
  | zero =>
    obtain rfl : head = exit := hH
    exact .refl p head t
  | succ m ih =>
    obtain ⟨hsplit, next, hbody, hH⟩ := hH
    have hnext := choicesBefore_loopSplit hsplit
    refine .loopSplit hsplit rfl ?_
    rw [← hnext, ← hsize _ _ hbody]
    exact (hp _ _ _ hbody).trans fun v _ => ih hH

theorem leadsOn_unbounded (hp : ∀ a b t, H a b → p.LeadsOn a b t (body (p.choicesBefore a) t))
    (hkeeps : ∀ k t, ∀ v ∈ body k t, t.Keeps v)
    (hsplit : p.instrs[head]? = some (loopSplit greedy exit head)) (hbody : H (head + 1) back)
    (hjump : p.instrs[back]? = some (.jump head)) :
    p.LeadsOn head exit t
      (Trail.unbounded greedy (body (p.choicesBefore head + 1)) (p.choicesBefore head) t) := by
  have hnext := choicesBefore_loopSplit hsplit
  -- A trail through the body leaves less of the text, or leads back to the choice just made.
  induction hlen : t.cur.rest.length using Nat.strongRecOn generalizing t with
  | ind len ih =>
    rw [Trail.unbounded_eq (hkeeps _)]
    refine .loopSplit hsplit rfl ?_
    rw [← hnext]
    refine (hp _ _ _ hbody).trans fun v hv => .jump hjump ?_
    rcases hkeeps _ _ v hv with hlt | ⟨-, hsub⟩
    · rw [hnext]
      exact ih _ (hlen ▸ hlt) rfl
    · have hmem : p.choicesBefore head ∈ v.made := hsub List.mem_cons_self
      rw [Trail.unbounded_of_mem hmem]
      exact .nil (not_along_of_mem (isChoice_loopSplit hsplit) hmem)

end

/-! ## The whole tree -/

mutual

/-- **The code of a piece prefers the trails that are tried first.** -/
theorem leadsOn_trails : ∀ {n : Node} {a b : Nat} {t : Trail}, n.WellFormed →
    p.code.Holds n a b → p.LeadsOn a b t (n.trails (p.choicesBefore a) t)
  | .empty, a, b, t, _, hholds => by
    rw [Code.Holds] at hholds
    rw [Node.trails, hholds]
    exact .refl p b t
  | .char c ignoreCase, a, b, t, _, hholds => by
    rw [Code.Holds] at hholds
    obtain ⟨hi, rfl⟩ := hholds
    rw [Node.trails]
    cases ignoreCase with
    | true => exact leadsOn_take hi rfl (by simp) fun ch => rfl
    | false => exact leadsOn_take hi rfl (by simp) fun ch => rfl
  | .any, a, b, t, _, hholds => by
    rw [Code.Holds] at hholds
    obtain ⟨hi, rfl⟩ := hholds
    rw [Node.trails]
    exact leadsOn_take hi rfl (by simp) fun ch => rfl
  | .anyButNewline, a, b, t, _, hholds => by
    rw [Code.Holds] at hholds
    obtain ⟨hi, rfl⟩ := hholds
    rw [Node.trails]
    exact leadsOn_take hi rfl (by simp) fun ch => rfl
  | .bracket br, a, b, t, _, hholds => by
    rw [Code.Holds] at hholds
    obtain ⟨index, hi, hbr, rfl⟩ := hholds
    rw [Node.trails]
    refine leadsOn_take hi rfl (by simp) fun ch => ?_
    have hbr : p.brackets[index]? = some br := hbr
    simp only [takes, hbr, Option.any_some]
  | .assertion s, a, b, t, _, hholds => by
    rw [Code.Holds] at hholds
    obtain ⟨hi, rfl⟩ := hholds
    rw [Node.trails]
    exact leadsOn_assertion hi
  | .cat nodes, a, b, t, hw, hholds => by
    rw [Code.Holds] at hholds
    rw [Node.trails]
    exact leadsOn_trailsAll hw hholds
  | .alt branches, a, b, t, hw, hholds => by
    rw [Code.Holds] at hholds
    rw [Node.trails]
    exact leadsOn_trailsSome hw.1 hw.2 hholds
  | .loop body ⟨min, none, greedy⟩, a, b, t, hw, hholds => by
    rw [Code.Holds] at hholds
    obtain ⟨head, back, hmin, hsplit, hbody, hjump, rfl⟩ := hholds
    have hsize : ∀ a b, p.code.Holds body a b →
        p.choicesBefore b = p.choicesBefore a + body.choices :=
      fun _ _ hH => choicesBefore_of_holds hH
    have hp : ∀ a b t, p.code.Holds body a b →
        p.LeadsOn a b t (body.trails (p.choicesBefore a) t) :=
      fun _ _ _ hH => leadsOn_trails hw.2 hH
    rw [Node.trails]
    refine (leadsOn_mandatory hsize hp hmin).trans ?_
    intro v _
    rw [← choicesBefore_iterate hsize hmin]
    exact leadsOn_unbounded hp (fun _ _ _ h => Node.keeps_of_mem_trails h) hsplit hbody hjump
  | .loop body ⟨min, some max, greedy⟩, a, b, t, hw, hholds => by
    rw [Code.Holds] at hholds
    obtain ⟨head, hmin, hmore⟩ := hholds
    have hsize : ∀ a b, p.code.Holds body a b →
        p.choicesBefore b = p.choicesBefore a + body.choices :=
      fun _ _ hH => choicesBefore_of_holds hH
    have hp : ∀ a b t, p.code.Holds body a b →
        p.LeadsOn a b t (body.trails (p.choicesBefore a) t) :=
      fun _ _ _ hH => leadsOn_trails hw.2 hH
    rw [Node.trails]
    refine (leadsOn_mandatory hsize hp hmin).trans ?_
    intro v _
    rw [← choicesBefore_iterate hsize hmin]
    exact leadsOn_optional hsize hp hmore
  | .group body index name, a, b, t, hw, hholds =>
    leadsOn_group hholds fun _ hH => leadsOn_trails hw.2 hH

theorem leadsOn_trailsAll : ∀ {ns : List Node} {a b : Nat} {t : Trail}, Node.AllWellFormed ns →
    p.code.HoldsAll ns a b → p.LeadsOn a b t (Node.trailsAll ns (p.choicesBefore a) t)
  | [], a, b, t, _, hholds => by
    rw [Code.HoldsAll] at hholds
    rw [Node.trailsAll, hholds]
    exact .refl p b t
  | n :: ns, a, b, t, hw, hholds => by
    rw [Code.HoldsAll] at hholds
    obtain ⟨m, hm, hholds⟩ := hholds
    rw [Node.trailsAll, ← choicesBefore_of_holds hm]
    exact (leadsOn_trails hw.1 hm).trans fun v _ => leadsOn_trailsAll hw.2 hholds

theorem leadsOn_trailsSome : ∀ {ns : List Node} {a b : Nat} {t : Trail}, ns ≠ [] →
    Node.AllWellFormed ns → p.code.HoldsBranches ns a b →
    p.LeadsOn a b t (Node.trailsSome ns (p.choicesBefore a) t)
  | [], _, _, _, hne, _, _ => absurd rfl hne
  | [n], a, b, t, _, hw, hholds => by
    rw [Code.HoldsBranches] at hholds
    rw [Node.trailsSome]
    exact leadsOn_trails hw.1 hholds
  | n :: m :: ns, a, b, t, _, hw, hholds => by
    rw [Code.HoldsBranches] at hholds
    obtain ⟨last, hsplit, hn, hjump, hholds⟩ := hholds
    have hnext : p.choicesBefore (a + 1) = p.choicesBefore a + 1 := choicesBefore_succ hsplit
    have hlast : p.choicesBefore (last + 1) = p.choicesBefore a + 1 + n.choices := by
      rw [← hnext, ← choicesBefore_of_holds hn]
      exact choicesBefore_succ hjump
    rw [Node.trailsSome]
    refine .split hsplit rfl ?_ ?_
    · have hjumps : p.LeadsOn (a + 1) b (t.mark (p.choicesBefore a))
          ((n.trails (p.choicesBefore (a + 1)) (t.mark (p.choicesBefore a))).flatMap
            fun v => [v]) :=
        (leadsOn_trails hw.1 hn).trans fun v _ => .jump hjump (.refl p b v)
      rwa [List.flatMap_singleton', hnext] at hjumps
    · rw [← hlast]
      exact leadsOn_trailsSome (List.cons_ne_nil m ns) hw.2 hholds

end

/-- **The preferred run records what backtracking without a choice made twice records.** -/
theorem Compiled.firstTrail_cases {pattern : Pattern} {exit : Nat} (hc : p.Compiled pattern exit)
    (hw : pattern.node.WellFormed) (width : Nat) (cur : Cursor) :
    (pattern.firstTrail width cur = none ∧ ∀ r, ¬ p.Accepts ⟨0, cur⟩ r) ∨
      ∃ r, p.Preferred List.Nodup ⟨0, cur⟩ r ∧
        pattern.firstTrail width cur = some (p.recorded r (.replicate width none)) := by
  have hlead : p.LeadsOn 0 exit ⟨⟨cur, .replicate width none⟩, []⟩
      ((Node.group pattern.node 0 none).trails 0 ⟨⟨cur, .replicate width none⟩, []⟩) :=
    leadsOn_group hc.holds fun _ hH => leadsOn_trails hw hH
  have hexit : p.Decides
      (((Node.group pattern.node 0 none).trails 0 ⟨⟨cur, .replicate width none⟩, []⟩).map
        (fun v => (exit, v)) ++ []) (pattern.firstTrail width cur) := by
    unfold Pattern.firstTrail
    cases (Node.group pattern.node 0 none).trails 0 ⟨⟨cur, .replicate width none⟩, []⟩ with
    | nil => exact .nil
    | cons v vs =>
      have hexit : p.recorded [⟨exit, v.cur⟩] v.slots = v.slots :=
        recordAt_of_instr hc.accept (by simp)
      have hrun : p.Decides ((exit, v) :: (vs.map (fun v => (exit, v)) ++ []))
          (some (p.recorded [⟨exit, v.cur⟩] v.slots)) :=
        .run (.complete hc.accept (along_accept hc.accept))
      rwa [hexit] at hrun
  -- The thread at the start has the outcome of the first trail at the exit.
  have hout := hlead [] _ hexit
  generalize pattern.firstTrail width cur = found at hout ⊢
  cases hout with
  | run h => exact Or.inr ⟨_, h.congr fun s hs => distinct_nil_iff hs, rfl⟩
  | skip h hnil =>
    cases hnil
    refine Or.inl ⟨rfl, ?_⟩
    intro r hr
    obtain ⟨s, hs, hn, -⟩ := hr.exists_nodup
    exact h s hs ((distinct_nil_iff hs).mpr hn)

end Program

end LinearRegex
