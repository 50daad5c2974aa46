import LinearRegex.Proofs.Pattern.Backtracking
import LinearRegex.Proofs.Program.Emission
import LinearRegex.Proofs.Run.Outcome

/-!
# Code prefers what backtracking tries first

A thread that enters the code of a piece stands for the ways to match the piece, in the order in
which a backtracking matcher tries them: it may be replaced by threads behind the code, one for each
way, without a change of the outcome.

Main statements: `leadsTo_ways`, and `Compiled.backtrack_cases` for a whole program.
-/

namespace LinearRegex

/-- A way to be followed from an instruction on. -/
def Way.pending (ip : Nat) (w : Way) : Pending := .follow ⟨ip, w.cur⟩ w.slots

namespace Program

variable {p : Program} {a b c : Nat} {v w : Way} {ws ws' : List Way}

/-- A thread at one instruction may be replaced by threads at another one. -/
def LeadsTo (p : Program) (a b : Nat) (w : Way) (ws : List Way) : Prop :=
  ∀ others o, p.Outcome AnyRun (ws.map (Way.pending b) ++ others) o →
    p.Outcome AnyRun (w.pending a :: others) o

/-! ## Threads that lead on -/

theorem outcome_step {ways others : List Pending} {o : Option Slots}
    (hexpand : p.expand ⟨a, w.cur⟩ w.slots = ways) (h : p.Outcome AnyRun (ways ++ others) o) :
    p.Outcome AnyRun (w.pending a :: others) o := by
  rw [← hexpand] at h
  exact .of_expand (fun _ _ _ _ => Iff.rfl) (fun _ _ _ _ => Iff.rfl) (fun _ => trivial) h

namespace LeadsTo

theorem refl (p : Program) (a : Nat) (w : Way) : p.LeadsTo a a w [w] := fun _ _ h => h

theorem trans {f : Way → List Way} (h : p.LeadsTo a b w ws)
    (h' : ∀ v ∈ ws, p.LeadsTo b c v (f v)) : p.LeadsTo a c w (ws.flatMap f) := by
  intro others o ho
  refine h others o ?_
  clear h
  induction ws generalizing o with
  | nil => exact ho
  | cons v ws ih =>
    rw [List.flatMap_cons, List.map_append, List.append_assoc] at ho
    rw [List.map_cons, List.cons_append]
    refine h' v List.mem_cons_self _ o (ho.append_congr fun o ho => ?_)
    exact ih (fun v hv => h' v (List.mem_cons_of_mem _ hv)) o ho

theorem step (hexpand : p.expand ⟨a, w.cur⟩ w.slots = [v.pending c]) (h : p.LeadsTo c b v ws) :
    p.LeadsTo a b w ws :=
  fun others o ho => outcome_step hexpand (h others o ho)

theorem jump {target : Nat} (hi : p.instrs[a]? = some (.jump target))
    (h : p.LeadsTo target b w ws) : p.LeadsTo a b w ws :=
  h.step (expand_jump hi)

theorem save {slot : Nat} (hi : p.instrs[a]? = some (.save slot))
    (h : p.LeadsTo (a + 1) b (w.record slot) ws) : p.LeadsTo a b w ws :=
  h.step (expand_save hi)

/-- A split leads where its primary target leads, and then where its secondary one does. -/
theorem split {primary secondary : Nat} (hi : p.instrs[a]? = some (.split primary secondary))
    (h : p.LeadsTo primary b w ws) (h' : p.LeadsTo secondary b w ws') :
    p.LeadsTo a b w (ws ++ ws') := by
  intro others o ho
  rw [List.map_append, List.append_assoc] at ho
  refine outcome_step (expand_split hi) (h _ o (ho.append_congr fun o ho => ?_))
  exact h' others o ho

theorem loopSplit {greedy : Bool} {exit head : Nat}
    (hi : p.instrs[head]? = some (loopSplit greedy exit head)) (h : p.LeadsTo (head + 1) b w ws)
    (h' : p.LeadsTo exit b w [v]) :
    p.LeadsTo head b w (if greedy then ws ++ [v] else v :: ws) := by
  unfold LinearRegex.loopSplit at hi
  cases greedy with
  | true => exact split hi h h'
  | false => exact split hi h' h

end LeadsTo

theorem leadsTo_take {ins : Instr} {accepts : Char → Bool} (hi : p.instrs[a]? = some ins)
    (hw : ins.waits = true) (hne : ins ≠ .accept) (ht : ∀ ch, p.takes ch ins = accepts ch) :
    p.LeadsTo a (a + 1) w (w.take accepts) := by
  have hcfg : p.instrs[(⟨a, w.cur⟩ : Config).ip]? = some ins := hi
  have hsave : ∀ slot, ins ≠ .save slot := by
    rintro slot rfl
    simp [Instr.waits] at hw
  have htakes : (fun ch => p.takes ch ins) = accepts := funext ht
  have hexpand : p.expand ⟨a, w.cur⟩ w.slots = (w.take accepts).map (Way.pending (a + 1)) := by
    rw [expand_of_not_accept hcfg hne, successors_of_waits hcfg hw, recordAt_of_instr hcfg hsave,
      htakes, Way.take]
    split <;> rfl
  intro others o ho
  exact outcome_step hexpand ho

theorem leadsTo_assertion {s : Assertion} (hi : p.instrs[a]? = some (.assertion s)) :
    p.LeadsTo a (a + 1) w (if s.holds w.cur then [w] else []) := by
  intro others o ho
  refine outcome_step (expand_assertion hi) ?_
  split at ho
  · next hs =>
    rw [if_pos hs]
    exact ho
  · next hs =>
    rw [if_neg hs]
    exact ho

theorem leadsTo_group {body : Node} {index : Nat} {name : Option String}
    (hholds : p.code.Holds (.group body index name) a b)
    (hbody : ∀ last, p.code.Holds body (a + 1) last →
      p.LeadsTo (a + 1) last (w.record (2 * index)) (body.ways (w.record (2 * index)))) :
    p.LeadsTo a b w ((Node.group body index name).ways w) := by
  rw [Code.Holds] at hholds
  obtain ⟨last, hopen, hinner, hclose, rfl⟩ := hholds
  rw [Node.ways, List.map_eq_flatMap]
  refine .save hopen ((hbody last hinner).trans fun v _ => ?_)
  exact .save hclose (.refl p (last + 1) _)

/-! ## Loops -/

section

variable {H : Nat → Nat → Prop} {body : Way → List Way} {m : Nat} {greedy : Bool}
variable {exit head back : Nat}

theorem leadsTo_mandatory (hp : ∀ a b w, H a b → p.LeadsTo a b w (body w)) (hH : Iterate H m a b) :
    p.LeadsTo a b w (Way.mandatory body m w) := by
  induction m generalizing a w with
  | zero =>
    obtain rfl : a = b := hH
    exact .refl p a w
  | succ m ih =>
    obtain ⟨c, hc, hH⟩ := hH
    exact (hp a c w hc).trans fun v _ => ih hH

theorem leadsTo_optional (hp : ∀ a b w, H a b → p.LeadsTo a b w (body w))
    (hH : p.code.HoldsOptions greedy exit H m head) :
    p.LeadsTo head exit w (Way.optional greedy body m w) := by
  induction m generalizing head w with
  | zero =>
    obtain rfl : head = exit := hH
    exact .refl p head w
  | succ m ih =>
    obtain ⟨hsplit, next, hbody, hH⟩ := hH
    exact .loopSplit hsplit ((hp _ _ w hbody).trans fun v _ => ih hH) (.refl p exit w)

theorem leadsTo_unbounded (hp : ∀ a b w, H a b → p.LeadsTo a b w (body w))
    (hadvances : Way.Advances body) (hsplit : p.instrs[head]? = some (loopSplit greedy exit head))
    (hbody : H (head + 1) back) (hjump : p.instrs[back]? = some (.jump head)) :
    p.LeadsTo head exit w (Way.unbounded greedy body w) := by
  -- Each way through the body leaves less of the text, so the same can be said behind it.
  induction hlen : w.cur.rest.length using Nat.strongRecOn generalizing w with
  | ind len ih =>
    rw [Way.unbounded_eq hadvances]
    refine .loopSplit hsplit ((hp _ _ w hbody).trans fun v hv => .jump hjump ?_) (.refl p exit w)
    exact ih _ (hlen ▸ hadvances w v hv) rfl

end

/-! ## The whole tree -/

mutual

/-- **The code of a piece prefers the ways that are tried first.** -/
theorem leadsTo_ways : ∀ {n : Node} {a b : Nat} {w : Way}, n.WellFormed →
    n.loopsAdvance = true → p.code.Holds n a b → p.LeadsTo a b w (n.ways w)
  | .empty, a, b, w, _, _, hholds => by
    rw [Code.Holds] at hholds
    rw [Node.ways, hholds]
    exact .refl p b w
  | .char c ignoreCase, a, b, w, _, _, hholds => by
    rw [Code.Holds] at hholds
    obtain ⟨hi, rfl⟩ := hholds
    rw [Node.ways]
    cases ignoreCase with
    | true => exact leadsTo_take hi rfl (by simp) fun ch => rfl
    | false => exact leadsTo_take hi rfl (by simp) fun ch => rfl
  | .any, a, b, w, _, _, hholds => by
    rw [Code.Holds] at hholds
    obtain ⟨hi, rfl⟩ := hholds
    rw [Node.ways]
    exact leadsTo_take hi rfl (by simp) fun ch => rfl
  | .anyButNewline, a, b, w, _, _, hholds => by
    rw [Code.Holds] at hholds
    obtain ⟨hi, rfl⟩ := hholds
    rw [Node.ways]
    exact leadsTo_take hi rfl (by simp) fun ch => rfl
  | .bracket br, a, b, w, _, _, hholds => by
    rw [Code.Holds] at hholds
    obtain ⟨index, hi, hbr, rfl⟩ := hholds
    rw [Node.ways]
    refine leadsTo_take hi rfl (by simp) ?_
    intro ch
    have hbr : p.brackets[index]? = some br := hbr
    simp only [takes, hbr, Option.any_some]
  | .assertion s, a, b, w, _, _, hholds => by
    rw [Code.Holds] at hholds
    obtain ⟨hi, rfl⟩ := hholds
    rw [Node.ways]
    exact leadsTo_assertion hi
  | .cat nodes, a, b, w, hw, hl, hholds => by
    rw [Code.Holds] at hholds
    rw [Node.loopsAdvance] at hl
    rw [Node.ways]
    exact leadsTo_waysAll hw hl hholds
  | .alt branches, a, b, w, hw, hl, hholds => by
    rw [Code.Holds] at hholds
    rw [Node.loopsAdvance] at hl
    rw [Node.ways]
    exact leadsTo_waysSome hw.1 hw.2 hl hholds
  | .loop body ⟨min, none, greedy⟩, a, b, w, hw, hl, hholds => by
    rw [Code.Holds] at hholds
    rw [Node.loopsAdvance, Bool.and_eq_true] at hl
    obtain ⟨head, back, hmin, hsplit, hbody, hjump, rfl⟩ := hholds
    have hempty : body.canMatchEmpty = false := by simpa using hl.1
    have hp : ∀ a b w, p.code.Holds body a b → p.LeadsTo a b w (body.ways w) :=
      fun _ _ _ hH => leadsTo_ways hw.2 hl.2 hH
    rw [Node.ways]
    refine (leadsTo_mandatory hp hmin).trans ?_
    intro v _
    exact leadsTo_unbounded hp (Way.advances_ways hw.2 hempty) hsplit hbody hjump
  | .loop body ⟨min, some max, greedy⟩, a, b, w, hw, hl, hholds => by
    rw [Code.Holds] at hholds
    rw [Node.loopsAdvance, Bool.and_eq_true] at hl
    obtain ⟨head, hmin, hmore⟩ := hholds
    have hp : ∀ a b w, p.code.Holds body a b → p.LeadsTo a b w (body.ways w) :=
      fun _ _ _ hH => leadsTo_ways hw.2 hl.2 hH
    rw [Node.ways]
    exact (leadsTo_mandatory hp hmin).trans fun v _ => leadsTo_optional hp hmore
  | .group body index name, a, b, w, hw, hl, hholds => by
    rw [Node.loopsAdvance] at hl
    exact leadsTo_group hholds fun _ hH => leadsTo_ways hw.2 hl hH

theorem leadsTo_waysAll : ∀ {ns : List Node} {a b : Nat} {w : Way}, Node.AllWellFormed ns →
    Node.allLoopsAdvance ns = true → p.code.HoldsAll ns a b →
    p.LeadsTo a b w (Node.waysAll ns w)
  | [], a, b, w, _, _, hholds => by
    rw [Code.HoldsAll] at hholds
    rw [Node.waysAll, hholds]
    exact .refl p b w
  | n :: ns, a, b, w, hw, hl, hholds => by
    rw [Code.HoldsAll] at hholds
    rw [Node.allLoopsAdvance, Bool.and_eq_true] at hl
    obtain ⟨m, hm, hholds⟩ := hholds
    rw [Node.waysAll]
    exact (leadsTo_ways hw.1 hl.1 hm).trans fun v _ => leadsTo_waysAll hw.2 hl.2 hholds

theorem leadsTo_waysSome : ∀ {ns : List Node} {a b : Nat} {w : Way}, ns ≠ [] →
    Node.AllWellFormed ns → Node.allLoopsAdvance ns = true → p.code.HoldsBranches ns a b →
    p.LeadsTo a b w (Node.waysSome ns w)
  | [], _, _, _, hne, _, _, _ => absurd rfl hne
  | [n], a, b, w, _, hw, hl, hholds => by
    rw [Code.HoldsBranches] at hholds
    rw [Node.allLoopsAdvance, Bool.and_eq_true] at hl
    rw [Node.waysSome, Node.waysSome, List.append_nil]
    exact leadsTo_ways hw.1 hl.1 hholds
  | n :: m :: ns, a, b, w, _, hw, hl, hholds => by
    rw [Code.HoldsBranches] at hholds
    rw [Node.allLoopsAdvance, Bool.and_eq_true] at hl
    obtain ⟨last, hsplit, hn, hjump, hholds⟩ := hholds
    rw [Node.waysSome]
    refine .split hsplit ?_ (leadsTo_waysSome (List.cons_ne_nil m ns) hw.2 hl.2 hholds)
    have hjumps : p.LeadsTo (a + 1) b w ((n.ways w).flatMap fun v => [v]) :=
      (leadsTo_ways hw.1 hl.1 hn).trans fun v _ => .jump hjump (.refl p b v)
    rwa [List.flatMap_singleton'] at hjumps

end

/-- **The preferred run records what backtracking records.** -/
theorem Compiled.backtrack_cases {pattern : Pattern} {exit : Nat} (hc : p.Compiled pattern exit)
    (hw : pattern.node.WellFormed) (hl : pattern.node.loopsAdvance = true) (width : Nat)
    (cur : Cursor) :
    (pattern.backtrack width cur = none ∧ ∀ r, ¬ p.Accepts ⟨0, cur⟩ r) ∨
      ∃ r, p.Preferred List.Nodup ⟨0, cur⟩ r ∧
        pattern.backtrack width cur = some (p.recorded r (.replicate width none)) := by
  have hlead := leadsTo_group (w := ⟨cur, .replicate width none⟩) hc.holds
    fun _ hH => leadsTo_ways hw hl hH
  have hexit : p.Outcome AnyRun
      (((Node.group pattern.node 0 none).ways ⟨cur, .replicate width none⟩).map
        (Way.pending exit) ++ []) (pattern.backtrack width cur) := by
    unfold Pattern.backtrack
    cases (Node.group pattern.node 0 none).ways ⟨cur, .replicate width none⟩ with
    | nil => exact .nil
    | cons w ws => exact outcome_step (expand_accept hc.accept) .complete
  -- The thread at the start has the outcome of the first way at the exit.
  have hout := hlead [] _ hexit
  generalize pattern.backtrack width cur = found at hout ⊢
  cases hout with
  | run h =>
    refine Or.inr ⟨_, ⟨h.accepts, h.nodup, fun s hs _ => h.first s hs trivial⟩, rfl⟩
  | skip h hnil =>
    cases hnil
    exact Or.inl ⟨rfl, fun r hr => h r hr trivial⟩

end Program

end LinearRegex
