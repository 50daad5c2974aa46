import LinearRegex.Proofs.Engine.Checked

/-!
# Searching step by step

The loops of a search taken apart: a machine that follows one frame of a stack or asks one thread in
each step, and whose state tells in which loop it is. Nothing limits how many steps it takes. The
prefilter is any function that tells where to go on, given the byte offset of a place where no
thread is left. A step fails if an access would lie outside or the text would be cut inside a
character.

Main statements: `Machine.exists_follow`, which says what one step on a stack does,
`Machine.exists_step`, which says that a step of a search does not fail, that less is left to be
done behind it, and that the search still comes to the same.
-/

namespace LinearRegex

/-- A number of steps, unless one of them fails. -/
def repeat? {α : Type} (step : α → Option α) : Nat → α → Option α
  | 0, a => some a
  | n + 1, a => (step a).bind (repeat? step n)

/-- **What sinks with every step bounds the steps** up to where it is over. -/
theorem exists_repeat? {α : Type} {step : α → Option α} (Holds : α → Nat → Prop) (Over : α → Prop)
    (h : ∀ a m, Holds a m → ¬ Over a → ∃ b, step a = some b ∧ ∃ m' < m, Holds b m') {a : α}
    {m : Nat} (ha : Holds a m) : ∃ n ≤ m, ∃ b, repeat? step n a = some b ∧ Over b ∧ ∃ m', Holds b m' := by
  induction m using Nat.strongRecOn generalizing a with
  | ind m ih =>
    by_cases hover : Over a
    · exact ⟨0, Nat.zero_le _, a, rfl, hover, m, ha⟩
    · obtain ⟨b, hb, m', hlt, hholds⟩ := h a m ha hover
      obtain ⟨n, hn, c, hc, hend⟩ := ih m' hlt hholds
      refine ⟨n + 1, by omega, c, ?_, hend⟩
      rw [repeat?, hb]
      exact hc

namespace Program.Machine

/-! ## Definitions -/

/-- Threads that are followed: the list, the slots of the thread, and the stack. -/
structure Following where
  threads : Threads
  slots : Slots
  stack : List Frame

/-- Takes a frame from the stack and does what it says. -/
def follow (p : Program) (hay : Haystack) (offset : Nat) : Following → Option Following
  | ⟨t, slots, []⟩ => some ⟨t, slots, []⟩
  | ⟨t, slots, .restore slot old :: stack⟩ =>
    if slot < slots.size then some ⟨t, slots.setIfInBounds slot old, stack⟩ else none
  | ⟨t, slots, .explore ip :: stack⟩ => do
    let (t, slots, frames) ← Checked.enter p hay offset t slots ip
    some ⟨t, slots, frames ++ stack⟩

/-- The loop that a search is in. -/
inductive Stage where
  /-- A round is to begin. -/
  | round
  /-- The thread of this round is followed. -/
  | starting (stack : List Frame)
  /-- The threads from a place in the list on are asked. -/
  | asking (place : Nat)
  /-- A thread that has taken the next character is followed; then those from a place in the list on
  are asked. -/
  | taking (stack : List Frame) (place : Nat)
  | over (verdict : Verdict)

/-- The state of a search. -/
structure State where
  stage : Stage
  budget : Option Nat
  matched : Bool
  /-- The byte offset of the round. -/
  offset : Nat
  cache : Cache

/-- The byte offset of a round that is to begin: where the threads wait, and if none is left, where
the search goes on. -/
def place? (next? : Nat → Option Nat) (input : Input) (s : State) : Option Nat :=
  if s.cache.current.set.isEmpty then
    if s.matched || (input.anchored && input.start.offset < s.offset) then none
    else if input.anchored then some s.offset
    else next? s.offset
  else some s.offset

/-- Begins a round, if there is one. -/
def begin (next? : Nat → Option Nat) (input : Input) (s : State) : State :=
  if s.budget = some 0 then { s with stage := .over (.error ⟨s.offset⟩) }
  else
    match place? next? input s with
    | none => { s with stage := .over (.ok s.matched) }
    | some offset =>
      if s.matched || (input.anchored && offset != input.start.offset) then
        { s with stage := .asking 0, offset }
      else
        { s with
          stage := .starting [.explore 0]
          offset
          cache := { s.cache with scratch := .replicate s.cache.scratch.size none } }

/-- Ends a round in front of the next character, or the search where there is none. -/
def finish (next? : Option Char) (s : State) : State :=
  match next? with
  | none => { s with stage := .over (.ok s.matched) }
  | some c =>
    { s with
      stage := .round
      budget := s.budget.map (· - 1)
      offset := s.offset + c.utf8Size
      cache := { s.cache with current := s.cache.next, next := s.cache.current.clear } }

/-- Asks the thread at a place in the list whether it takes the next character. A thread that is
complete ends the round, and the search if no slots are recorded. -/
def ask (p : Program) (width : Nat) (next? : Option Char) (place : Nat) (s : State) :
    Option State :=
  match s.cache.current.set.dense[place]? with
  | none => some (finish next? s)
  | some ip => do
    match ← p.instrs[ip]? with
    | .accept =>
      if width = 0 then some { s with stage := .over (.ok true) }
      else
        let slots ← Checked.load s.cache.current ip s.cache.slots
        some (finish next? { s with matched := true, cache := { s.cache with slots } })
    | i =>
      if next?.any (p.takes · i) then
        let scratch ← Checked.load s.cache.current ip s.cache.scratch
        some { s with
          stage := .taking [.explore (ip + 1)] (place + 1)
          cache := { s.cache with scratch } }
      else some { s with stage := .asking (place + 1) }

/-- One step of a search. -/
def step (p : Program) (next? : Nat → Option Nat) (input : Input) (width : Nat) (s : State) :
    Option State :=
  match s.stage with
  | .over _ => some s
  | .round => some (begin next? input s)
  | .starting [] => some { s with stage := .asking 0 }
  | .starting (f :: stack) => do
    let ⟨current, scratch, stack⟩ ←
      follow p input.hay s.offset ⟨s.cache.current, s.cache.scratch, f :: stack⟩
    some { s with stage := .starting stack, cache := { s.cache with current, scratch } }
  | .asking place => do
    let cur ← input.hay.cut? s.offset
    ask p width cur.after place s
  | .taking [] place => some { s with stage := .asking place }
  | .taking (f :: stack) place => do
    let cur ← input.hay.cut? s.offset
    let ⟨next, scratch, stack⟩ ←
      follow p input.hay cur.next.offset ⟨s.cache.next, s.cache.scratch, f :: stack⟩
    some { s with stage := .taking stack place, cache := { s.cache with next, scratch } }

/-- A search before its first step. -/
def init (p : Program) (input : Input) (width : Nat) (cache : Cache) : State where
  stage := .round
  budget := input.budget
  matched := false
  offset := input.start.offset
  cache := cache.prepare p.instrs.size width

/-! ## One step on a stack -/

variable {p : Program} {hay : Haystack} {cur : Cursor} {width n : Nat}

/-- A thread that can be followed. -/
structure Following.Sound (f : Following) (n width : Nat) : Prop where
  fits : f.threads.Fits n width
  slots : f.slots.size = width
  stack : ∀ x ∈ f.stack, x.InBounds n width

/-- What is left to be done until the stack is empty. -/
def Following.left (f : Following) : Nat := Checked.left f.threads.set + f.stack.length

/-- What comes of following a thread. -/
def Following.outcome (p : Program) (cur : Cursor) (f : Following) : Threads × Slots :=
  p.close cur f.threads f.slots f.stack

/-- **A step on a stack does not fail**, and it brings the end of the stack nearer: the outcome is
the same, and less is left to be done. -/
theorem exists_follow (hp : p.Closed) (hcur : cur ∈ hay.cursors) {f : Following}
    (hf : f.Sound p.instrs.size width) (hstack : f.stack ≠ []) :
    ∃ f', follow p hay cur.offset f = some f' ∧ f'.Sound p.instrs.size width ∧
      f'.outcome p cur = f.outcome p cur ∧ f'.left < f.left := by
  obtain ⟨t, slots, stack⟩ := f
  obtain ⟨hfits, hslots, hframes⟩ := hf
  dsimp only at hfits hslots hframes hstack
  match stack with
  | [] => exact absurd rfl hstack
  | .restore slot old :: stack =>
    obtain ⟨hslot, hframes⟩ := List.forall_mem_cons.mp hframes
    refine ⟨_, if_pos (hslots ▸ hslot), ⟨hfits, by simpa using hslots, hframes⟩, ?_,
      Nat.lt_succ_self _⟩
    unfold Following.outcome
    rw [Program.close]
  | .explore ip :: stack =>
    obtain ⟨hip, hframes⟩ := List.forall_mem_cons.mp hframes
    obtain ⟨t', slots', frames, henter, hsame, hfits', hslots', hframes', hleft⟩ :=
      Checked.exists_enter hp hcur hfits hslots hip
    refine ⟨⟨t', slots', frames ++ stack⟩, ?_, ⟨hfits', hslots',
      List.forall_mem_append.mpr ⟨hframes', hframes⟩⟩, ?_, ?_⟩
    · rw [follow, henter]
      rfl
    · unfold Following.outcome
      rw [close_explore, hsame]
    · unfold Following.left
      simp only [List.length_append, List.length_cons]
      omega

/-! ## What comes of a state -/

variable {next? : Nat → Option Nat} {input : Input} {s s' : State} {place place' : Cursor}

/-- What comes of a search behind a round. -/
def afterRound (p : Program) (input : Input) (width : Nat) (budget : Option Nat) (matched : Bool)
    (place : Cursor) (cache : Cache) : Verdict × Cache :=
  match place.rest with
  | [] => (.ok matched, cache)
  | _ :: _ =>
    p.rounds input width (budget.map (· - 1)) matched place.next
      { cache with current := cache.next, next := cache.current.clear }

/-- What comes of a round in which some threads are still to be asked. -/
def afterThreads (p : Program) (input : Input) (width : Nat) (budget : Option Nat) (matched : Bool)
    (place : Cursor) (cache : Cache) (ips : List Nat) : Verdict × Cache :=
  match p.stepThreads cache.current place.after place.next ips cache.next cache.scratch with
  | (none, next, scratch) =>
    afterRound p input width budget matched place { cache with next, scratch }
  | (some ip, next, scratch) =>
    if width = 0 then (.ok true, { cache with next, scratch })
    else afterRound p input width budget true place
      { cache with next, scratch, slots := cache.current.load ip cache.slots }

/-- What comes of a state, as the engine has it. -/
def State.outcome (p : Program) (input : Input) (width : Nat) (s : State) (place : Cursor) :
    Verdict × Cache :=
  match s.stage with
  | .over verdict => (verdict, s.cache)
  | .round => p.rounds input width s.budget s.matched place s.cache
  | .starting stack =>
    match p.close place s.cache.current s.cache.scratch stack with
    | (current, scratch) =>
      afterThreads p input width s.budget s.matched place { s.cache with current, scratch }
        current.set.toList
  | .asking k =>
    afterThreads p input width s.budget s.matched place s.cache (s.cache.current.set.toList.drop k)
  | .taking stack k =>
    match p.close place.next s.cache.next s.cache.scratch stack with
    | (next, scratch) =>
      afterThreads p input width s.budget s.matched place { s.cache with next, scratch }
        (s.cache.current.set.toList.drop k)

/-- A round starts a thread and then asks those that there are. -/
theorem rounds_eq {budget : Option Nat} {matched : Bool} {cache : Cache} (hb : budget ≠ some 0)
    (hp : p.roundPlace? input matched cur cache.current.set.isEmpty = some place) :
    p.rounds input width budget matched cur cache =
      match p.startThread input matched place cache.current cache.scratch with
      | (current, scratch) =>
        afterThreads p input width budget matched place { cache with current, scratch }
          current.set.toList := by
  obtain ⟨current, next, slots, scratch⟩ := cache
  cases hstart : p.startThread input matched place current scratch with
  | mk current' scratch' =>
  cases hstep : p.stepThreads current' place.after place.next current'.set.toList next scratch' with
  | mk complete rest =>
  obtain ⟨next', scratch''⟩ := rest
  unfold afterThreads
  dsimp only
  rw [hstep]
  cases complete with
  | some ip =>
    by_cases hw : width = 0
    · rw [rounds_untracked hb hp hstart hstep rfl hw]
      simp only [if_pos hw]
    · simp only [if_neg hw]
      unfold afterRound
      split
      · next hr =>
        rw [rounds_textEnd hb hp hstart hstep hr fun _ _ => hw]
        simp [slotsAfter]
      · next c cs hr =>
        rw [rounds_next hb hp hstart hstep hr fun _ _ => hw]
        simp [slotsAfter]
  | none =>
    dsimp only
    unfold afterRound
    split
    · next hr =>
      rw [rounds_textEnd hb hp hstart hstep hr (by simp)]
      simp [slotsAfter]
    · next c cs hr =>
      rw [rounds_next hb hp hstart hstep hr (by simp)]
      simp [slotsAfter]

/-! ## One step of a search -/

/-- The frames on the stack. -/
def Stage.frames : Stage → List Frame
  | .round => []
  | .starting stack => stack
  | .asking _ => []
  | .taking stack _ => stack
  | .over _ => []

/-- A state that a search at a place can be in. -/
structure State.Sound (p : Program) (input : Input) (width : Nat) (s : State) (place : Cursor) :
    Prop where
  mem_cursors : place ∈ input.hay.cursors
  offset : s.offset = place.offset
  current : s.cache.current.Fits p.instrs.size width
  next : s.cache.next.Fits p.instrs.size width
  slots : s.cache.slots.size = width
  scratch : s.cache.scratch.size = width
  frames : ∀ x ∈ s.stage.frames, x.InBounds p.instrs.size width

/-- At most so many steps make up a round: the thread that is started is followed, each thread is
asked, and those that go on are followed together. -/
def roundSteps (p : Program) : Nat := 7 * p.instrs.size + 5

/-- What is left to be done until a search is over. -/
def State.left (p : Program) (s : State) (place : Cursor) : Nat :=
  match s.stage with
  | .over _ => 0
  | .round => (place.rest.length + 1) * roundSteps p
  | .starting stack =>
    place.rest.length * roundSteps p + 3 * p.instrs.size + Checked.left s.cache.next.set +
      Checked.left s.cache.current.set + stack.length + 3
  | .asking k =>
    place.rest.length * roundSteps p + 3 * (p.instrs.size - k) + Checked.left s.cache.next.set + 1
  | .taking stack k =>
    place.rest.length * roundSteps p + 3 * (p.instrs.size - k) + Checked.left s.cache.next.set +
      stack.length + 2

/-- A function that tells where to go on: at boundaries, and never at an earlier one. -/
def GoesOnward (next? : Nat → Option Nat) (hay : Haystack) : Prop :=
  ∀ cur ∈ hay.cursors, ∀ o, next? cur.offset = some o → ∃ q ∈ cur.onward, q.offset = o

/-- One state comes right behind another: less is left to be done, and the outcome is the same if
the program's own prefilter is asked. -/
structure Behind (p : Program) (next? : Nat → Option Nat) (input : Input) (width : Nat)
    (s : State) (place : Cursor) (s' : State) (place' : Cursor) : Prop where
  sound : s'.Sound p input width place'
  left_lt : s'.left p place' < s.left p place
  outcome : (∀ o, next? o = p.prefilter.next? input.hay.bytes o) →
    s'.outcome p input width place' = s.outcome p input width place

theorem left_le {t : Threads} (h : t.Fits n width) : Checked.left t.set ≤ 2 * n := by
  have := h.capacity
  unfold Checked.left
  omega

/-- Asking threads, a search has more left to be done than in the rounds that follow. -/
theorem lt_left_of_asking {k : Nat} (h : s.stage = .asking k) :
    place.rest.length * roundSteps p < s.left p place := by
  unfold State.left
  rw [h]
  dsimp only
  omega

/-- A round takes place at a boundary behind, and where the engine's does. -/
theorem place?_cases (hnext : GoesOnward next? input.hay) (hs : s.Sound p input width place) :
    (place? next? input s = none ∧ ((∀ o, next? o = p.prefilter.next? input.hay.bytes o) →
        p.roundPlace? input s.matched place s.cache.current.set.isEmpty = none)) ∨
      ∃ place' ∈ place.onward, place? next? input s = some place'.offset ∧
        ((∀ o, next? o = p.prefilter.next? input.hay.bytes o) →
          p.roundPlace? input s.matched place s.cache.current.set.isEmpty = some place') := by
  unfold place? roundPlace? resume?
  rw [hs.offset]
  by_cases hidle : s.cache.current.set.isEmpty = true
  · simp only [if_pos hidle]
    by_cases hdone :
        (s.matched || input.anchored && decide (input.start.offset < place.offset)) = true
    · simp only [if_pos hdone]
      exact .inl ⟨trivial, fun _ => trivial⟩
    · simp only [if_neg hdone]
      by_cases hanchored : input.anchored = true
      · simp only [if_pos hanchored]
        exact .inr ⟨place, place.mem_onward_self, rfl, fun _ => rfl⟩
      · simp only [if_neg hanchored]
        cases ho : next? place.offset with
        | none => exact .inl ⟨rfl, fun hown => by rw [← hown, ho, Option.map_none]⟩
        | some o =>
          obtain ⟨place', hplace', rfl⟩ := hnext place hs.mem_cursors o ho
          refine .inr ⟨place', hplace', rfl, fun hown => ?_⟩
          rw [← hown, ho, Option.map_some, Cursor.advanceTo_offset hplace']
  · simp only [if_neg hidle]
    exact .inr ⟨place, place.mem_onward_self, rfl, fun _ => rfl⟩

/-- The rounds from a place on, and a round at a place behind it. -/
theorem round_le (h : place' ∈ place.onward) :
    place'.rest.length * roundSteps p + (7 * p.instrs.size + 5) ≤
      (place.rest.length + 1) * roundSteps p := by
  have hle := Nat.mul_le_mul_right (roundSteps p) (Cursor.rest_length_le_of_mem_onward h)
  rw [Nat.succ_mul place.rest.length]
  unfold roundSteps at hle ⊢
  omega

/-- **The beginning of a round** finds a place behind, if there is one. -/
theorem behind_begin (hnext : GoesOnward next? input.hay) (hs : s.Sound p input width place)
    (hp : p.Closed) (hstage : s.stage = .round) :
    ∃ place', Behind p next? input width s place (begin next? input s) place' := by
  have hplace := place?_cases hnext hs
  obtain ⟨hmem, hoffset, hcurrent, hnextFits, hslots, hscratch, -⟩ := hs
  have hleft : s.left p place = (place.rest.length + 1) * roundSteps p := by
    unfold State.left
    rw [hstage]
  have houtcome : s.outcome p input width place =
      p.rounds input width s.budget s.matched place s.cache := by
    unfold State.outcome
    rw [hstage]
  have hover : ∀ verdict, 0 < s.left p place ∧
      State.Sound p input width { s with stage := .over verdict } place := fun verdict =>
    ⟨hleft ▸ Nat.lt_of_lt_of_le (Nat.succ_pos _) (round_le place.mem_onward_self),
      hmem, hoffset, hcurrent, hnextFits, hslots, hscratch, by simp [Stage.frames]⟩
  unfold begin
  by_cases hb : s.budget = some 0
  · rw [if_pos hb]
    refine ⟨place, (hover _).2, (hover (.ok true)).1, fun _ => ?_⟩
    rw [houtcome, rounds, if_pos hb, hoffset]
    rfl
  · rw [if_neg hb]
    obtain ⟨hnone, hown⟩ | ⟨place', hplace', hsome, hown⟩ := hplace
    · rw [hnone]
      refine ⟨place, (hover _).2, (hover (.ok true)).1, fun h => ?_⟩
      rw [houtcome, rounds_stop hb (hown h)]
      rfl
    · rw [hsome]
      dsimp only
      have hmem' := Cursor.mem_onward_trans hmem hplace'
      have hround := round_le (p := p) hplace'
      have hlast := left_le hnextFits
      by_cases hskip : (s.matched || input.anchored && place'.offset != input.start.offset) = true
      · rw [if_pos hskip]
        refine ⟨place', ⟨hmem', rfl, hcurrent, hnextFits, hslots, hscratch,
          by simp [Stage.frames]⟩, ?_, fun h => ?_⟩
        · rw [hleft]
          simp only [State.left]
          omega
        · rw [houtcome, rounds_eq hb (hown h), startThread, if_pos hskip]
          rfl
      · rw [if_neg hskip]
        refine ⟨place', ⟨hmem', rfl, hcurrent, hnextFits, hslots, by simpa using hscratch,
          List.forall_mem_singleton.mpr hp.nonempty⟩, ?_, fun h => ?_⟩
        · have hfirst := left_le hcurrent
          rw [hleft]
          simp only [State.left, List.length_singleton]
          omega
        · rw [houtcome, rounds_eq hb (hown h), startThread, if_neg hskip]
          rfl

/-- **The end of a round** leads behind the next character, if there is one. -/
theorem sound_finish (hs : s.Sound p input width place) :
    ∃ place', (finish place.after s).Sound p input width place' ∧
      (finish place.after s).left p place' ≤ place.rest.length * roundSteps p ∧
      (finish place.after s).outcome p input width place' =
        afterRound p input width s.budget s.matched place s.cache := by
  obtain ⟨hmem, hoffset, hcurrent, hnext, hslots, hscratch, -⟩ := hs
  unfold finish afterRound
  cases hr : place.rest with
  | nil =>
    have hafter : place.after = none := by rw [Cursor.after, hr, List.head?_nil]
    rw [hafter]
    exact ⟨place, ⟨hmem, hoffset, hcurrent, hnext, hslots, hscratch, by simp [Stage.frames]⟩,
      Nat.zero_le _, rfl⟩
  | cons c cs =>
    have hafter : place.after = some c := by rw [Cursor.after, hr, List.head?_cons]
    rw [hafter]
    refine ⟨place.next, ⟨Haystack.next_mem_cursors hmem, ?_, hnext, hcurrent.clear, hslots,
      hscratch, by simp [Stage.frames]⟩, ?_, rfl⟩
    · rw [Cursor.offset_next hr, hoffset]
    · unfold State.left
      dsimp only
      simp only [Cursor.rest_next hr, List.length_cons, Nat.le_refl]

/-- A member of a set, and those behind it. -/
theorem drop_toList {set : SparseSet} {k ip : Nat} (h : set.dense[k]? = some ip) :
    set.toList.drop k = ip :: set.toList.drop (k + 1) ∧ ip < set.capacity ∧ k < set.capacity := by
  obtain ⟨hk, hip⟩ := Array.getElem?_eq_some_iff.mp h
  have hsize := set.size_le_capacity
  refine ⟨?_, set.lt_capacity_of_mem (Array.mem_of_getElem? h), Nat.lt_of_lt_of_le hk hsize⟩
  unfold SparseSet.toList
  rw [List.drop_eq_getElem_cons (by simpa using hk)]
  simp [hip]

/-- What is left to be done where threads are asked is to ask those that are left. -/
theorem outcome_of_asking {k : Nat} (hstage : s.stage = .asking k) :
    s.outcome p input width place =
      afterThreads p input width s.budget s.matched place s.cache
        (s.cache.current.set.toList.drop k) := by
  unfold State.outcome
  rw [hstage]

/-- **The end of the list** ends the round. -/
theorem behind_last {k : Nat} (hs : s.Sound p input width place) (hstage : s.stage = .asking k)
    (hplace : s.cache.current.set.dense[k]? = none) :
    ∃ place', Behind p next? input width s place (finish place.after s) place' := by
  have hdrop : s.cache.current.set.toList.drop k = [] := by
    rw [Array.getElem?_eq_none_iff] at hplace
    exact List.drop_eq_nil_of_le (by simpa [SparseSet.toList] using hplace)
  obtain ⟨place', hsound, hle, houtcome⟩ := sound_finish hs
  refine ⟨place', hsound, Nat.lt_of_le_of_lt hle (lt_left_of_asking hstage), fun _ => ?_⟩
  rw [houtcome, outcome_of_asking hstage, hdrop]
  rfl

/-- **A thread that is complete** ends the round, or the search. -/
theorem exists_complete {k ip : Nat} (hs : s.Sound p input width place)
    (hstage : s.stage = .asking k) (hplace : s.cache.current.set.dense[k]? = some ip)
    (hi : p.instrs[ip]? = some .accept) : ∃ s' place', ask p width place.after k s = some s' ∧
      Behind p next? input width s place s' place' := by
  obtain ⟨hdrop, hip, -⟩ := drop_toList hplace
  rw [hs.current.capacity] at hip
  have houtcome : s.outcome p input width place =
      if width = 0 then (.ok true, s.cache)
      else afterRound p input width s.budget true place
        { s.cache with slots := s.cache.current.load ip s.cache.slots } := by
    rw [outcome_of_asking hstage, hdrop]
    unfold afterThreads
    rw [stepThreads, hi]
  unfold ask
  rw [hplace]
  simp only [hi, Option.bind_eq_bind, Option.bind_some]
  by_cases hw : width = 0
  · rw [if_pos hw]
    refine ⟨_, place, rfl, ⟨hs.mem_cursors, hs.offset, hs.current, hs.next, hs.slots, hs.scratch,
      by simp [Stage.frames]⟩, Nat.zero_lt_of_lt (lt_left_of_asking hstage), fun _ => ?_⟩
    rw [houtcome, if_pos hw]
    rfl
  · rw [if_neg hw, Checked.load_eq hs.current hip hs.slots]
    have hmatched : State.Sound p input width { s with
        matched := true
        cache := { s.cache with slots := s.cache.current.load ip s.cache.slots } } place :=
      ⟨hs.mem_cursors, hs.offset, hs.current, hs.next, by simpa using hs.slots, hs.scratch,
        hs.frames⟩
    obtain ⟨place', hsound, hle, hfinish⟩ := sound_finish hmatched
    refine ⟨_, place', rfl, hsound, Nat.lt_of_le_of_lt hle (lt_left_of_asking hstage), fun _ => ?_⟩
    rw [hfinish, houtcome, if_neg hw]

/-- **A thread that takes the next character** is followed, and one that does not is left behind. -/
theorem exists_takes {k ip : Nat} {i : Instr} (hp : p.Closed) (hs : s.Sound p input width place)
    (hstage : s.stage = .asking k) (hplace : s.cache.current.set.dense[k]? = some ip)
    (hi : p.instrs[ip]? = some i) (hne : i ≠ .accept) :
    ∃ s' place', ask p width place.after k s = some s' ∧
      Behind p next? input width s place s' place' := by
  obtain ⟨hdrop, hip, hk⟩ := drop_toList hplace
  rw [hs.current.capacity] at hip hk
  have houtcome : s.outcome p input width place =
      afterThreads p input width s.budget s.matched place s.cache
        (ip :: s.cache.current.set.toList.drop (k + 1)) := by
    rw [outcome_of_asking hstage, hdrop]
  have hask : ask p width place.after k s =
      if place.after.any (p.takes · i) then
        (Checked.load s.cache.current ip s.cache.scratch).bind fun scratch =>
          some { s with
            stage := .taking [.explore (ip + 1)] (k + 1)
            cache := { s.cache with scratch } }
      else some { s with stage := .asking (k + 1) } := by
    unfold ask
    rw [hplace]
    simp only [hi, Option.bind_eq_bind, Option.bind_some]
  rw [hask]
  by_cases htakes : place.after.any (p.takes · i) = true
  · have hbehind := Checked.succ_lt_of_takes hp hi htakes
    rw [if_pos htakes, Checked.load_eq hs.current hip hs.scratch]
    refine ⟨_, place, rfl, ⟨hs.mem_cursors, hs.offset, hs.current, hs.next, hs.slots,
      by simpa using hs.scratch, List.forall_mem_singleton.mpr hbehind⟩, ?_, fun _ => ?_⟩
    · simp only [State.left, hstage, List.length_singleton]
      omega
    · rw [houtcome]
      unfold afterThreads
      rw [stepThreads_of_takes hi hne htakes]
      rfl
  · rw [if_neg htakes]
    refine ⟨_, place, rfl, ⟨hs.mem_cursors, hs.offset, hs.current, hs.next, hs.slots, hs.scratch,
      by simp [Stage.frames]⟩, ?_, fun _ => ?_⟩
    · simp only [State.left, hstage]
      omega
    · rw [houtcome]
      unfold afterThreads
      rw [stepThreads_of_not_takes hi hne htakes]
      rfl

/-- **Asking a thread** does not fail. -/
theorem exists_ask {k : Nat} (hp : p.Closed) (hs : s.Sound p input width place)
    (hstage : s.stage = .asking k) : ∃ s' place', ask p width place.after k s = some s' ∧
      Behind p next? input width s place s' place' := by
  cases hplace : s.cache.current.set.dense[k]? with
  | none =>
    obtain ⟨place', hbehind⟩ := behind_last hs hstage hplace
    refine ⟨_, place', ?_, hbehind⟩
    unfold ask
    rw [hplace]
  | some ip =>
    have hip := hs.current.capacity ▸ (drop_toList hplace).2.1
    have hi := Array.getElem?_eq_getElem hip
    by_cases haccept : p.instrs[ip] = .accept
    · exact exists_complete hs hstage hplace (hi.trans (congrArg some haccept))
    · exact exists_takes hp hs hstage hplace hi haccept

/-- A step on the stack of the thread that a round starts. -/
theorem exists_starting {f : Frame} {stack : List Frame} (hp : p.Closed)
    (hs : s.Sound p input width place) (hstage : s.stage = .starting (f :: stack)) :
    ∃ s', step p next? input width s = some s' ∧ Behind p next? input width s place s' place := by
  obtain ⟨⟨current, scratch, stack'⟩, hfollow, ⟨hcurrent, hscratch, hframes⟩, hsame, hleft⟩ :=
    exists_follow hp hs.mem_cursors
      (f := ⟨s.cache.current, s.cache.scratch, f :: stack⟩)
      ⟨hs.current, hs.scratch, fun x hx => hs.frames x (by rw [hstage]; exact hx)⟩
      (List.cons_ne_nil _ _)
  unfold step
  rw [hstage]
  dsimp only
  rw [hs.offset, hfollow]
  refine ⟨_, rfl, ⟨hs.mem_cursors, rfl, hcurrent, hs.next, hs.slots, hscratch, hframes⟩,
    ?_, fun _ => ?_⟩
  · simp only [Following.left, List.length_cons] at hleft
    simp only [State.left, hstage, List.length_cons]
    omega
  · unfold Following.outcome at hsame
    unfold State.outcome
    rw [hstage]
    dsimp only at hsame ⊢
    rw [hsame]

/-- A step on the stack of a thread that has taken the next character. -/
theorem exists_taking {f : Frame} {stack : List Frame} {k : Nat} (hp : p.Closed)
    (hs : s.Sound p input width place) (hstage : s.stage = .taking (f :: stack) k) :
    ∃ s', step p next? input width s = some s' ∧ Behind p next? input width s place s' place := by
  obtain ⟨⟨next, scratch, stack'⟩, hfollow, ⟨hnext, hscratch, hframes⟩, hsame, hleft⟩ :=
    exists_follow hp (Haystack.next_mem_cursors hs.mem_cursors)
      (f := ⟨s.cache.next, s.cache.scratch, f :: stack⟩)
      ⟨hs.next, hs.scratch, fun x hx => hs.frames x (by rw [hstage]; exact hx)⟩
      (List.cons_ne_nil _ _)
  unfold step
  rw [hstage]
  dsimp only
  rw [hs.offset, Haystack.cut?_offset hs.mem_cursors]
  simp only [Option.bind_eq_bind, Option.bind_some, hfollow]
  refine ⟨_, rfl, ⟨hs.mem_cursors, rfl, hs.current, hnext, hs.slots, hscratch, hframes⟩,
    ?_, fun _ => ?_⟩
  · simp only [Following.left, List.length_cons] at hleft
    simp only [State.left, hstage, List.length_cons]
    omega
  · unfold Following.outcome at hsame
    unfold State.outcome
    rw [hstage]
    dsimp only at hsame ⊢
    rw [hsame]

/-- A stack that has become empty: the threads are asked, or the next ones of them. -/
theorem behind_asking {k : Nat} (hs : s.Sound p input width place)
    (hstage : s.stage = .starting [] ∧ k = 0 ∨ s.stage = .taking [] k) :
    Behind p next? input width s place { s with stage := .asking k } place := by
  refine ⟨⟨hs.mem_cursors, hs.offset, hs.current, hs.next, hs.slots, hs.scratch,
    by simp [Stage.frames]⟩, ?_, fun _ => ?_⟩
  · rcases hstage with ⟨hstage, rfl⟩ | hstage
    all_goals
      simp only [State.left, hstage]
      omega
  · unfold State.outcome
    rcases hstage with ⟨hstage, rfl⟩ | hstage
    · rw [hstage]
      dsimp only
      rw [List.drop_zero, close]
    · rw [hstage]
      dsimp only
      rw [close]

/-- **No step of a search fails**, and with every step less is left to be done. -/
theorem exists_step (hp : p.Closed) (hnext : GoesOnward next? input.hay)
    (hs : s.Sound p input width place) (hover : ∀ verdict, s.stage ≠ .over verdict) :
    ∃ s' place', step p next? input width s = some s' ∧
      Behind p next? input width s place s' place' := by
  match hstage : s.stage with
  | .over verdict => exact absurd hstage (hover verdict)
  | .round =>
    obtain ⟨place', hbehind⟩ := behind_begin hnext hs hp hstage
    exact ⟨_, place', by rw [step, hstage], hbehind⟩
  | .starting [] => exact ⟨_, place, by rw [step, hstage], behind_asking hs (.inl ⟨hstage, rfl⟩)⟩
  | .starting (f :: stack) =>
    obtain ⟨s', hstep, hbehind⟩ := exists_starting hp hs hstage
    exact ⟨s', place, hstep, hbehind⟩
  | .asking k =>
    unfold step
    rw [hstage]
    dsimp only
    rw [hs.offset, Haystack.cut?_offset hs.mem_cursors]
    exact exists_ask hp hs hstage
  | .taking [] k => exact ⟨_, place, by rw [step, hstage], behind_asking hs (.inr hstage)⟩
  | .taking (f :: stack) k =>
    obtain ⟨s', hstep, hbehind⟩ := exists_taking hp hs hstage
    exact ⟨s', place, hstep, hbehind⟩

end Program.Machine

end LinearRegex
