import LinearRegex.Pattern.Node.Walk
import LinearRegex.Proofs.Pattern.Parts

/-!
# What a walk visits

The place of a piece in a tree tells the way down to it. A walk that calls the visitor before what
is inside visits places in preorder, and just those that lie below no piece where the visitor has
raised the flag; a walk that calls it after visits all places in postorder. The flag that is raised
at one piece is lowered at the next one, so it says nothing of a neighbour or of the pieces around.

Which calls there are is told by a visitor that also keeps a log of them.

Main statement: `traverse_visits`.
-/

namespace LinearRegex.Node

variable {σ : Type}

/-! ## Places -/

/-- A place in a tree: which of the pieces right inside to go on to, at each step down. -/
abbrev Place := List Nat

/-- The piece at a place. -/
def at? (n : Node) : Place → Option Node
  | [] => some n
  | i :: p => n.children[i]?.bind (·.at? p)

/-- The piece at a place within some trees that stand side by side, the first of them at `k`. -/
def atFrom? (k : Nat) (ns : List Node) : Place → Option Node
  | [] => none
  | i :: p => if k ≤ i then ns[i - k]?.bind (·.at? p) else none

theorem at?_cons (n : Node) (i : Nat) (p : Place) :
    n.at? (i :: p) = atFrom? 0 n.children (i :: p) := by simp [at?, atFrom?]

theorem atFrom?_nil (k : Nat) (p : Place) : atFrom? k [] p = none := by
  cases p <;> simp [atFrom?]

theorem atFrom?_cons_self (k : Nat) (n : Node) (ns : List Node) (p : Place) :
    atFrom? k (n :: ns) (k :: p) = n.at? p := by simp [atFrom?]

theorem atFrom?_cons_of_ne {i k : Nat} (h : i ≠ k) (n : Node) (ns : List Node) (p : Place) :
    atFrom? k (n :: ns) (i :: p) = atFrom? (k + 1) ns (i :: p) := by
  rw [atFrom?, atFrom?]
  by_cases hi : k + 1 ≤ i
  · rw [if_pos hi, if_pos (Nat.le_of_succ_le hi), show i - k = i - (k + 1) + 1 by omega,
      List.getElem?_cons_succ]
  · rw [if_neg hi, if_neg (by omega)]

theorem exists_cons_of_atFrom? {k : Nat} {ns : List Node} {p : Place} {n : Node}
    (h : atFrom? k ns p = some n) : ∃ i q, p = i :: q ∧ k ≤ i := by
  cases p with
  | nil => simp [atFrom?] at h
  | cons i q =>
    rw [atFrom?] at h
    split at h
    · next hi => exact ⟨i, q, rfl, hi⟩
    · simp at h

namespace Place

/-- Whether a place lies on the way down to another one. -/
def Above (p q : Place) : Prop := p <+: q ∧ p ≠ q

/-- The order of places: of two trees side by side the earlier one comes first, and a piece comes
before all that is inside it in preorder, behind it in postorder. -/
inductive Before (postorder : Bool) : Place → Place → Prop
  | outside {i : Nat} {p : Place} (h : postorder = false) : Before postorder [] (i :: p)
  | inside {i : Nat} {p : Place} (h : postorder = true) : Before postorder (i :: p) []
  | earlier {i j : Nat} {p q : Place} (h : i < j) : Before postorder (i :: p) (j :: q)
  | within {i : Nat} {p q : Place} (h : Before postorder p q) : Before postorder (i :: p) (i :: q)

theorem not_above_nil {p : Place} : ¬ Above p [] := fun h => h.2 (List.prefix_nil.mp h.1)

theorem nil_above_cons {i : Nat} {p : Place} : Above [] (i :: p) := ⟨List.nil_prefix, by simp⟩

theorem cons_above_cons {i j : Nat} {p q : Place} :
    Above (i :: p) (j :: q) ↔ i = j ∧ Above p q := by
  rw [Above, List.cons_prefix_cons, Above]
  constructor
  · rintro ⟨⟨rfl, hpq⟩, hne⟩
    exact ⟨rfl, hpq, fun h => hne (h ▸ rfl)⟩
  · rintro ⟨rfl, hpq, hne⟩
    exact ⟨⟨rfl, hpq⟩, fun h => hne (List.cons.inj h).2⟩

/-- No place comes before itself. -/
theorem Before.ne {postorder : Bool} {p q : Place} (h : Before postorder p q) : p ≠ q := by
  induction h with
  | outside => simp
  | inside => simp
  | earlier h => exact fun heq => Nat.ne_of_lt h (List.cons.inj heq).1
  | within _ ih => exact fun heq => ih (List.cons.inj heq).2

end Place

/-! ## Calls and visits -/

/-- One call of a visitor. -/
structure Call where
  node : Node
  /-- The record that the visitor is given. -/
  given : Walk
  /-- The record as the visitor leaves it. -/
  left : Walk

/-- A call, and the place that it is made for. -/
structure Visit extends Call where
  place : Place

/-- Whether a visitor leaves the depth alone. -/
def SharedVisitor.KeepsDepth (visit : SharedVisitor σ) : Prop :=
  ∀ s n walk, (visit s n walk).2.depth = walk.depth

/-- The visitor that also logs its calls, the last one at the end. -/
def SharedVisitor.logged (visit : SharedVisitor σ) : SharedVisitor (σ × List Call) :=
  fun (s, log) n walk =>
    let (s, left) := visit s n walk
    ((s, log ++ [⟨n, walk, left⟩]), left)

/-- Whether none of some visits has raised the flag above a place. -/
def Unskipped (visits : List Visit) (p : Place) : Prop :=
  ∀ v ∈ visits, v.place.Above p → v.left.skipChildren = false

/-- The visits of a walk over one tree or over trees side by side, at the given depth. Each is for
the piece at its place and told the depth of it. They come in order; and they are for all places,
but in preorder for none below a piece where the flag is raised. -/
structure Visited (postorder : Bool) (look : Place → Option Node) (depth : Nat)
    (visits : List Visit) : Prop where
  placed : ∀ v ∈ visits, look v.place = some v.node ∧ v.given.depth = depth + v.place.length
  ordered : (visits.map Visit.place).Pairwise (Place.Before postorder)
  mem_iff : ∀ p, p ∈ visits.map Visit.place ↔
    (look p).isSome ∧ (postorder = false → Unskipped visits p)

/-! ## Trees side by side -/

variable {postorder : Bool} {n : Node} {ns : List Node} {d k : Nat} {v : Visit}
  {vs us : List Visit} {p : Place}

/-- A visit within the tree at `k`. -/
def Visit.under (k : Nat) (v : Visit) : Visit := { v with place := k :: v.place }

theorem map_place_under (k : Nat) (vs : List Visit) :
    (vs.map (Visit.under k)).map Visit.place = (vs.map Visit.place).map (k :: ·) := by
  rw [List.map_map, List.map_map]
  rfl

theorem map_toCall_under (k : Nat) (vs : List Visit) :
    (vs.map (Visit.under k)).map Visit.toCall = vs.map Visit.toCall := by
  rw [List.map_map]
  rfl

theorem cons_mem_map_cons {i k : Nat} {l : List Place} :
    i :: p ∈ l.map (k :: ·) ↔ k = i ∧ p ∈ l := by
  rw [List.mem_map]
  constructor
  · rintro ⟨q, hq, heq⟩
    obtain ⟨rfl, rfl⟩ := List.cons.inj heq
    exact ⟨rfl, hq⟩
  · rintro ⟨rfl, hp⟩
    exact ⟨p, hp, rfl⟩

theorem unskipped_nil : Unskipped vs [] := fun _ _ habove => absurd habove Place.not_above_nil

theorem unskipped_append : Unskipped (vs ++ us) p ↔ Unskipped vs p ∧ Unskipped us p :=
  List.forall_mem_append

theorem unskipped_under {i : Nat} : Unskipped (vs.map (Visit.under k)) (i :: p) ↔
    (k = i → Unskipped vs p) := by
  unfold Unskipped
  rw [List.forall_mem_map]
  constructor
  · rintro h rfl v hv habove
    exact h v hv (Place.cons_above_cons.mpr ⟨rfl, habove⟩)
  · intro h v hv habove
    obtain ⟨hk, habove⟩ := Place.cons_above_cons.mp habove
    exact h hk v hv habove

namespace Visited

theorem exists_cons (h : Visited postorder (atFrom? k ns) d us) (hp : p ∈ us.map Visit.place) :
    ∃ i q, p = i :: q ∧ k ≤ i := by
  obtain ⟨v, hv, rfl⟩ := List.mem_map.mp hp
  exact exists_cons_of_atFrom? (h.placed v hv).1

theorem nil_not_mem (h : Visited postorder (atFrom? k ns) d us) : [] ∉ us.map Visit.place := by
  intro hp
  obtain ⟨i, q, hq, -⟩ := h.exists_cons hp
  simp at hq

/-- Visits of trees that stand behind a place say nothing of what is inside of it. -/
theorem unskipped_of_lt (h : Visited postorder (atFrom? (k + 1) ns) d us) :
    Unskipped us (k :: p) := by
  intro v hv habove
  obtain ⟨i, q, hplace, hi⟩ := h.exists_cons (List.mem_map_of_mem hv)
  rw [hplace, Place.cons_above_cons] at habove
  omega

theorem nil : Visited postorder (atFrom? k []) d [] where
  placed _ hv := absurd hv List.not_mem_nil
  ordered := List.Pairwise.nil
  mem_iff p := by simp [atFrom?_nil]

/-- **Visits of one tree and of the trees behind it** are the visits of all of them. -/
theorem cons (hvs : Visited postorder n.at? (d + 1) vs)
    (hus : Visited postorder (atFrom? (k + 1) ns) d us) :
    Visited postorder (atFrom? k (n :: ns)) d (vs.map (Visit.under k) ++ us) where
  placed v hv := by
    rcases List.mem_append.mp hv with hv | hv
    · obtain ⟨v, hmem, rfl⟩ := List.mem_map.mp hv
      obtain ⟨hlook, hdepth⟩ := hvs.placed v hmem
      refine ⟨(atFrom?_cons_self k n ns v.place).trans hlook, hdepth.trans ?_⟩
      exact Nat.succ_add_eq_add_succ d v.place.length
    · obtain ⟨hlook, hdepth⟩ := hus.placed v hv
      obtain ⟨i, q, hplace, hi⟩ := exists_cons_of_atFrom? hlook
      refine ⟨?_, hdepth⟩
      rw [hplace, atFrom?_cons_of_ne (by omega), ← hplace, hlook]
  ordered := by
    rw [List.map_append, map_place_under, List.pairwise_append, List.pairwise_map]
    refine ⟨hvs.ordered.imp .within, hus.ordered, fun p hp q hq => ?_⟩
    obtain ⟨p, -, rfl⟩ := List.mem_map.mp hp
    obtain ⟨i, q, rfl, hi⟩ := hus.exists_cons hq
    exact .earlier hi
  mem_iff p := by
    rw [List.map_append, map_place_under, List.mem_append, unskipped_append]
    cases p with
    | nil =>
      refine iff_of_false ?_ (by simp [atFrom?])
      rintro (hp | hp)
      · simp at hp
      · exact hus.nil_not_mem hp
    | cons i p =>
      rw [cons_mem_map_cons, unskipped_under]
      by_cases hi : k = i
      · subst hi
        have hnot : k :: p ∉ us.map Visit.place := by
          intro hp
          obtain ⟨j, q, hq, hj⟩ := hus.exists_cons hp
          obtain rfl := (List.cons.inj hq).1
          omega
        have hunskipped : Unskipped us (k :: p) := hus.unskipped_of_lt
        simp only [hnot, hunskipped, atFrom?_cons_self, hvs.mem_iff p, true_and, or_false, and_true,
          forall_const]
      · simp only [hi, false_and, false_or, false_implies, true_and, hus.mem_iff (i :: p),
          atFrom?_cons_of_ne (Ne.symm hi)]

/-! ## A piece and what is inside of it -/

theorem placed_inside (h : Visited postorder (atFrom? 0 n.children) d vs) :
    ∀ u ∈ vs, n.at? u.place = some u.node ∧ u.given.depth = d + u.place.length := by
  intro u hu
  obtain ⟨hlook, hdepth⟩ := h.placed u hu
  obtain ⟨i, q, hq, -⟩ := h.exists_cons (List.mem_map_of_mem hu)
  rw [hq] at hlook ⊢
  exact ⟨hlook ▸ at?_cons n i q, hq ▸ hdepth⟩

/-- Before what is inside of a piece, the piece is visited, and the flag is left lowered. -/
theorem before (h : Visited false (atFrom? 0 n.children) d vs) (hplace : v.place = [])
    (hnode : v.node = n) (hdepth : v.given.depth = d) (hskip : v.left.skipChildren = false) :
    Visited false n.at? d (v :: vs) where
  placed u hu := by
    rcases List.mem_cons.mp hu with rfl | hu
    · rw [hplace, hnode]
      exact ⟨rfl, hdepth⟩
    · exact h.placed_inside u hu
  ordered := by
    rw [List.map_cons, List.pairwise_cons, hplace]
    refine ⟨fun p hp => ?_, h.ordered⟩
    obtain ⟨i, q, rfl, -⟩ := h.exists_cons hp
    exact .outside rfl
  mem_iff p := by
    rw [List.map_cons, List.mem_cons, hplace]
    cases p with
    | nil => exact iff_of_true (.inl rfl) ⟨rfl, fun _ => unskipped_nil⟩
    | cons i p =>
      have hroot : Unskipped (v :: vs) (i :: p) ↔ Unskipped vs (i :: p) :=
        List.forall_mem_cons.trans (and_iff_right fun _ => hskip)
      rw [h.mem_iff, at?_cons, hroot]
      simp

/-- Where the flag is raised, a piece is visited and nothing that is inside of it. -/
theorem skip (hplace : v.place = []) (hnode : v.node = n) (hdepth : v.given.depth = d)
    (hskip : v.left.skipChildren = true) : Visited false n.at? d [v] where
  placed u hu := by
    obtain rfl := List.mem_singleton.mp hu
    rw [hplace, hnode]
    exact ⟨rfl, hdepth⟩
  ordered := List.pairwise_singleton _ _
  mem_iff p := by
    rw [List.map_singleton, List.mem_singleton, hplace]
    cases p with
    | nil => exact iff_of_true rfl ⟨rfl, fun _ => unskipped_nil⟩
    | cons i p =>
      refine iff_of_false (by simp) ?_
      rintro ⟨-, h⟩
      have := h rfl v (List.mem_singleton_self v) (hplace ▸ Place.nil_above_cons)
      rw [hskip] at this
      simp at this

/-- Behind what is inside of a piece, the piece is visited. -/
theorem after (h : Visited true (atFrom? 0 n.children) d vs) (hplace : v.place = [])
    (hnode : v.node = n) (hdepth : v.given.depth = d) : Visited true n.at? d (vs ++ [v]) where
  placed u hu := by
    rcases List.mem_append.mp hu with hu | hu
    · exact h.placed_inside u hu
    · obtain rfl := List.mem_singleton.mp hu
      rw [hplace, hnode]
      exact ⟨rfl, hdepth⟩
  ordered := by
    rw [List.map_append, List.map_singleton, hplace, List.pairwise_append]
    refine ⟨h.ordered, List.pairwise_singleton _ _, fun p hp q hq => ?_⟩
    obtain rfl := List.mem_singleton.mp hq
    obtain ⟨i, q, rfl, -⟩ := h.exists_cons hp
    exact .inside rfl
  mem_iff p := by
    rw [List.map_append, List.map_singleton, List.mem_append, List.mem_singleton, hplace, h.mem_iff]
    cases p with
    | nil => simp [at?]
    | cons i p => simp [at?_cons]

end Visited

/-! ## Stretches of a walk -/

/-- A stretch of a walk makes certain calls, which are what is logged of it, and goes back to the
depth where it has begun. -/
def Makes (run : σ × Walk → σ × Walk)
    (logged : (σ × List Call) × Walk → (σ × List Call) × Walk) (start : σ × Walk)
    (visits : List Visit) : Prop :=
  (run start).2.depth = start.2.depth ∧
    ∀ log, logged ((start.1, log), start.2) =
      (((run start).1, log ++ visits.map Visit.toCall), (run start).2)

section

variable {visit : SharedVisitor σ} {run run' inside : σ × Walk → σ × Walk}
  {logged logged' insideLogged : (σ × List Call) × Walk → (σ × List Call) × Walk}
  {start : σ × Walk} {s : σ} {walk : Walk}

theorem Makes.nil : Makes id id start [] := ⟨rfl, fun log => by simp⟩

theorem Makes.comp (h : Makes run logged start vs) (h' : Makes run' logged' (run start) us) :
    Makes (run' ∘ run) (logged' ∘ logged) start (vs ++ us) := by
  refine ⟨h'.1.trans h.1, fun log => ?_⟩
  rw [Function.comp_apply, Function.comp_apply, h.2, h'.2, List.map_append, List.append_assoc]

theorem Makes.under (h : Makes run logged start vs) (k : Nat) :
    Makes run logged start (vs.map (Visit.under k)) := by
  refine ⟨h.1, fun log => ?_⟩
  rw [h.2, map_toCall_under]

/-- The call for a piece that the walk comes to. -/
def SharedVisitor.callAt (visit : SharedVisitor σ) (s : σ) (n : Node) (walk : Walk) : Visit :=
  { node := n, given := walk, left := (visit s n walk).2, place := [] }

/-! ## One piece -/

theorem enter_skip (h : (visit s n walk.lowered).2.skipChildren = true) :
    enter false visit n inside (s, walk) = visit s n walk.lowered := by
  simp only [enter, Bool.false_eq_true, ↓reduceIte]
  exact if_pos h

theorem enter_before (h : (visit s n walk.lowered).2.skipChildren = false) :
    enter false visit n inside (s, walk) =
      (inside (Prod.map id Walk.deeper (visit s n walk.lowered))).map id Walk.back := by
  simp only [enter, Bool.false_eq_true, ↓reduceIte]
  exact if_neg (Bool.not_eq_true _ ▸ h)

theorem enter_after : enter true visit n inside (s, walk) =
    visit (inside (s, walk.lowered.deeper)).1 n (inside (s, walk.lowered.deeper)).2.back := rfl

/-- Where the flag is raised, the call for the piece is the only one. -/
theorem Makes.skip (hkeeps : visit.KeepsDepth)
    (hskip : (visit s n walk.lowered).2.skipChildren = true) :
    Makes (enter false visit n inside) (enter false visit.logged n insideLogged) (s, walk)
      [visit.callAt s n walk.lowered] := by
  refine ⟨?_, fun log => ?_⟩
  · rw [enter_skip hskip]
    exact hkeeps s n walk.lowered
  · have hskip' : (visit.logged (s, log) n walk.lowered).2.skipChildren = true := hskip
    rw [enter_skip hskip, enter_skip hskip']
    rfl

/-- In preorder, the call for the piece is made before those for what is inside of it. -/
theorem Makes.before (hkeeps : visit.KeepsDepth)
    (hskip : (visit s n walk.lowered).2.skipChildren = false)
    (h : Makes inside insideLogged (Prod.map id Walk.deeper (visit s n walk.lowered)) vs) :
    Makes (enter false visit n inside) (enter false visit.logged n insideLogged) (s, walk)
      (visit.callAt s n walk.lowered :: vs) := by
  obtain ⟨hback, hlog⟩ := h
  refine ⟨?_, fun log => ?_⟩
  · rw [enter_before hskip]
    exact (congrArg (· - 1) hback).trans (hkeeps s n walk.lowered)
  · have hskip' : (visit.logged (s, log) n walk.lowered).2.skipChildren = false := hskip
    rw [enter_before hskip, enter_before hskip', List.map_cons, List.append_cons]
    exact congrArg (Prod.map id Walk.back)
      (hlog (log ++ [(visit.callAt s n walk.lowered).toCall]))

/-- In postorder, the call for the piece is made behind those for what is inside of it. -/
theorem Makes.after (hkeeps : visit.KeepsDepth)
    (h : Makes inside insideLogged (s, walk.lowered.deeper) vs) :
    Makes (enter true visit n inside) (enter true visit.logged n insideLogged) (s, walk)
      (vs ++ [visit.callAt (inside (s, walk.lowered.deeper)).1 n
        (inside (s, walk.lowered.deeper)).2.back]) := by
  obtain ⟨hback, hlog⟩ := h
  refine ⟨?_, fun log => ?_⟩
  · rw [enter_after]
    exact (hkeeps _ _ _).trans (congrArg (· - 1) hback)
  · rw [enter_after, enter_after, hlog log, List.map_append, ← List.append_assoc]
    rfl

/-- **The walk over a piece** makes the calls that are made inside of it, if any, and the call for
the piece itself. -/
theorem exists_visits_enter (hkeeps : visit.KeepsDepth)
    (hinside : ∀ start : σ × Walk, start.2.depth = walk.depth + 1 → ∃ vs,
      Makes inside insideLogged start vs ∧
        Visited postorder (atFrom? 0 n.children) walk.depth vs) :
    ∃ vs, Makes (enter postorder visit n inside) (enter postorder visit.logged n insideLogged)
        (s, walk) vs ∧ Visited postorder n.at? walk.depth vs := by
  cases postorder with
  | false =>
    have hdepth : (visit s n walk.lowered).2.depth = walk.depth := hkeeps s n walk.lowered
    cases hskip : (visit s n walk.lowered).2.skipChildren with
    | true => exact ⟨_, .skip hkeeps hskip, .skip rfl rfl rfl hskip⟩
    | false =>
      obtain ⟨vs, hmakes, hvisited⟩ :=
        hinside (Prod.map id Walk.deeper (visit s n walk.lowered)) (congrArg (· + 1) hdepth)
      exact ⟨_, hmakes.before hkeeps hskip, hvisited.before rfl rfl rfl hskip⟩
  | true =>
    -- Nothing has raised the flag yet when the walk goes on to what is inside.
    obtain ⟨vs, hmakes, hvisited⟩ := hinside (s, walk.lowered.deeper) rfl
    exact ⟨_, hmakes.after hkeeps, hvisited.after rfl rfl (congrArg (· - 1) hmakes.1)⟩

theorem process_eq (postorder : Bool) (visit : SharedVisitor σ) (n : Node) :
    process postorder visit n =
      enter postorder visit n (processAll postorder visit n.children) := by
  cases n <;> rfl

/-- The walk over trees side by side makes the calls of the walks over each of them. -/
theorem exists_visits_all (hns : ∀ n ∈ ns, ∀ start : σ × Walk, ∃ vs,
      Makes (process postorder visit n) (process postorder visit.logged n) start vs ∧
        Visited postorder n.at? start.2.depth vs)
    (k d : Nat) (start : σ × Walk) (hdepth : start.2.depth = d + 1) :
    ∃ vs, Makes (processAll postorder visit ns) (processAll postorder visit.logged ns) start vs ∧
      Visited postorder (atFrom? k ns) d vs := by
  induction ns generalizing k start with
  | nil => exact ⟨[], .nil, .nil⟩
  | cons n ns ih =>
    obtain ⟨hn, hns⟩ := List.forall_mem_cons.mp hns
    obtain ⟨vs, hmakes, hvisited⟩ := hn start
    obtain ⟨us, hmakes', hvisited'⟩ :=
      ih hns (k + 1) (process postorder visit n start) (hmakes.1.trans hdepth)
    exact ⟨vs.map (Visit.under k) ++ us, (hmakes.under k).comp hmakes',
      (hdepth ▸ hvisited).cons hvisited'⟩

/-- **The walk over a tree visits what it should**, wherever it begins. -/
theorem exists_visits (hkeeps : visit.KeepsDepth) (postorder : Bool) (n : Node)
    (start : σ × Walk) : ∃ vs,
      Makes (process postorder visit n) (process postorder visit.logged n) start vs ∧
        Visited postorder n.at? start.2.depth vs := by
  rw [process_eq, process_eq]
  exact exists_visits_enter hkeeps fun inner hinner =>
    exists_visits_all (fun m hm => exists_visits hkeeps postorder m) 0 start.2.depth inner hinner
termination_by n.height
decreasing_by exact height_lt_of_mem_children hm

end

/-! ## Whole trees -/

/-- **A walk visits exactly the pieces that it should.** For every visitor that leaves the depth
alone, whatever its state and wherever it raises the flag: the calls that a walk makes are, one for
each, for places in the tree, in preorder or in postorder, and none is visited twice. In preorder
they are the places below no place that is visited and where the flag is raised; in postorder they
are all places. Each call is given the piece at its place, and its depth. In the end the depth is 0
again. -/
theorem traverse_visits {visit : SharedVisitor σ} (h : visit.KeepsDepth) (postorder : Bool)
    (root : Node) (s : σ) : ∃ visits : List Visit,
      traverse postorder visit.logged root (s, []) =
        (((traverse postorder visit root s).1, visits.map Visit.toCall),
          (traverse postorder visit root s).2) ∧
      (traverse postorder visit root s).2.depth = 0 ∧
      (∀ v ∈ visits, root.at? v.place = some v.node ∧ v.given.depth = v.place.length) ∧
      (visits.map Visit.place).Pairwise (Place.Before postorder) ∧
      (visits.map Visit.place).Nodup ∧
      ∀ p, p ∈ visits.map Visit.place ↔ (root.at? p).isSome ∧
        (postorder = false → ∀ v ∈ visits, v.place.Above p → v.left.skipChildren = false) := by
  obtain ⟨visits, ⟨hdepth, hlog⟩, hvisited⟩ := exists_visits h postorder root (s, {})
  refine ⟨visits, hlog [], hdepth, fun v hv => ?_, hvisited.ordered,
    hvisited.ordered.imp Place.Before.ne, hvisited.mem_iff⟩
  obtain ⟨hplace, hgiven⟩ := hvisited.placed v hv
  exact ⟨hplace, hgiven.trans (Nat.zero_add _)⟩

/-- A visitor that counts its calls and raises the flag at every third one. Here that is the last
piece of a row: what is inside it is left out, and the group behind the row is visited with what is
inside it. -/
theorem traverse_visits_every_third : ∃ (visit : SharedVisitor Nat) (root : Node)
    (visits : List Visit), visit.KeepsDepth ∧
      root = .alt [.cat [.loop .any ⟨0, none, true⟩], .group .empty 1 none] ∧
      traverse false visit.logged root (1, []) =
        (((traverse false visit root 1).1, visits.map Visit.toCall),
          (traverse false visit root 1).2) ∧
      (visits.map fun v => (v.given.depth, v.left.skipChildren)) =
        [(0, false), (1, false), (2, true), (1, false), (2, false)] ∧
      (traverse false visit root 1).1 = 6 ∧ (traverse false visit root 1).2.depth = 0 ∧
      (visits.map Visit.place).Pairwise (Place.Before false) ∧
      ∀ p, p ∈ visits.map Visit.place ↔ (root.at? p).isSome ∧
        ∀ v ∈ visits, v.place.Above p → v.left.skipChildren = false := by
  let visit : SharedVisitor Nat := fun calls _ walk =>
    (calls + 1, if calls % 3 = 0 then { walk with skipChildren := true } else walk)
  let root : Node := .alt [.cat [.loop .any ⟨0, none, true⟩], .group .empty 1 none]
  have hkeeps : visit.KeepsDepth := by
    intro calls n walk
    dsimp only [visit]
    split <;> rfl
  obtain ⟨visits, hlog, hdepth, -, hordered, -, hmem⟩ := traverse_visits hkeeps false root 1
  have hcalls : visits.map Visit.toCall = (traverse false visit.logged root (1, [])).1.2 := by
    rw [hlog]
  have hgiven : (visits.map fun v => (v.given.depth, v.left.skipChildren)) =
      (visits.map Visit.toCall).map fun c => (c.given.depth, c.left.skipChildren) := by
    rw [List.map_map]
    rfl
  refine ⟨visit, root, visits, hkeeps, rfl, hlog, ?_, by decide, hdepth, hordered, fun p => ?_⟩
  · rw [hgiven, hcalls]
    decide
  · exact (hmem p).trans (and_congr_right' (forall_prop_of_true rfl))

end LinearRegex.Node
