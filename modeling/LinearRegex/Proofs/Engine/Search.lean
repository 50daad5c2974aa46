import LinearRegex.Proofs.Engine.Rounds

/-!
# What a search finds

A search gives the outcome of the threads that may be started: whether one of them has an accepting
run, and if so the slots of the preferred run of the first that has one.

A round is put into equations, one for each way it may end (`rounds_stop`, `rounds_untracked`,
`rounds_textEnd` and `rounds_next`).

Main statement: `outcome_search`.
-/

namespace LinearRegex

/-- The lists of a cache are ready for a round of a program with `n` instructions. -/
structure Cache.Ready (cache : Cache) (n width : Nat) : Prop where
  current : cache.current.Fits n width
  next : cache.next.Fits n width
  next_empty : cache.next.set.isEmpty = true
  slots : cache.slots.size = width
  scratch : cache.scratch.size = width

namespace Program

variable {p : Program} {input : Input} {cur place : Cursor} {width : Nat} {matched : Bool}
variable {current next : Threads} {slots scratch : Slots} {complete : Option Nat} {n : Nat}
variable {outcome : Option Slots}

/-- The slots of the match that is known after a round. -/
def slotsAfter (current : Threads) (slots : Slots) : Option Nat → Slots
  | some ip => current.load ip slots
  | none => slots

/-! ## One round -/

section

variable {budget : Option Nat} {current' next' : Threads} {scratch' scratch'' : Slots}
variable (hb : budget ≠ some 0)
include hb

/-- The search is over where no round takes place. -/
theorem rounds_stop (hp : p.roundPlace? input matched cur current.set.isEmpty = none) :
    p.rounds input width budget matched cur ⟨current, next, slots, scratch⟩ =
      (.ok matched, ⟨current, next, slots, scratch⟩) := by
  rw [rounds, if_neg hb]
  split
  · rfl
  · next hsome =>
    rw [hp] at hsome
    simp at hsome

variable (hp : p.roundPlace? input matched cur current.set.isEmpty = some place)
  (hstart : p.startThread input matched place current scratch = (current', scratch'))
  (hstep : p.stepThreads current' place.after place.next current'.set.toList next scratch' =
    (complete, next', scratch''))
include hp hstart hstep

/-- Where no slots are recorded, a thread that is complete ends the search. -/
theorem rounds_untracked {ip : Nat} (hc : complete = some ip) (hw : width = 0) :
    p.rounds input width budget matched cur ⟨current, next, slots, scratch⟩ =
      (.ok true, ⟨current', next', slots, scratch''⟩) := by
  subst hw hc
  rw [rounds, if_neg hb]
  split
  · next hnone =>
    rw [hp] at hnone
    simp at hnone
  · next hsome =>
    obtain rfl := Option.some.inj (hp.symm.trans hsome)
    simp only [hstart, hstep]

/-- The round at the end of the text is the last. -/
theorem rounds_textEnd (hr : place.rest = [])
    (hgo : ∀ ip, complete = some ip → width = 0 → False) :
    p.rounds input width budget matched cur ⟨current, next, slots, scratch⟩ =
      (.ok (matched || complete.isSome),
        ⟨current', next', slotsAfter current' slots complete, scratch''⟩) := by
  rw [rounds, if_neg hb]
  split
  · next hnone =>
    rw [hp] at hnone
    simp at hnone
  · next hsome =>
    obtain rfl := Option.some.inj (hp.symm.trans hsome)
    simp only [hstart, hstep]
    -- With slots to record, the round goes on whether a thread is complete or not.
    cases complete with
    | none => split <;> simp_all [slotsAfter]
    | some ip =>
      cases width with
      | zero => exact (hgo ip rfl rfl).elim
      | succ width => split <;> simp_all [slotsAfter]

/-- Elsewhere the search goes on behind the next character. -/
theorem rounds_next {c : Char} {cs : List Char} (hr : place.rest = c :: cs)
    (hgo : ∀ ip, complete = some ip → width = 0 → False) :
    p.rounds input width budget matched cur ⟨current, next, slots, scratch⟩ =
      p.rounds input width (budget.map (· - 1)) (matched || complete.isSome) place.next
        ⟨next', current'.clear, slotsAfter current' slots complete, scratch''⟩ := by
  rw [rounds, if_neg hb]
  split
  · next hnone =>
    rw [hp] at hnone
    simp at hnone
  · next hsome =>
    obtain rfl := Option.some.inj (hp.symm.trans hsome)
    simp only [hstart, hstep]
    -- With slots to record, the round goes on whether a thread is complete or not.
    cases complete with
    | none => split <;> simp_all [slotsAfter]
    | some ip =>
      cases width with
      | zero => exact (hgo ip rfl rfl).elim
      | succ width => split <;> simp_all [slotsAfter]

end

/-! ## What comes of a round -/

/-- At the end of the text no thread goes on. -/
theorem stepThreads_none (p : Program) (current : Threads) (behind : Cursor) (ips : List Nat)
    (next : Threads) (scratch : Slots) :
    (p.stepThreads current none behind ips next scratch).2 = (next, scratch) := by
  induction ips with
  | nil => rfl
  | cons ip ips ih =>
    unfold stepThreads
    split
    · exact ih
    · rfl
    · rw [Option.any_none, if_neg (by simp)]
      exact ih

/-- What is behind the stepped threads is what the next round starts with. -/
theorem cutOff_eq (hs : slots.size = current.width) {others : List Pending}
    (h : others = if matched then [.complete slots] else
      (startsFrom input place).map fun q => .follow ⟨0, q⟩ (.replicate width none)) :
    cutOff current others complete =
      starting input width (matched || complete.isSome) (slotsAfter current slots complete)
        place := by
  cases complete with
  | none => simp [cutOff, starting, slotsAfter, h]
  | some ip => simp [cutOff, starting, slotsAfter, Threads.load_eq_row hs]

theorem size_slotsAfter (hs : slots.size = width) :
    (slotsAfter current slots complete).size = width := by
  cases complete with
  | none => exact hs
  | some ip => rw [slotsAfter, Threads.size_load, hs]

/-- A round in its parts: where it takes place, the thread that is started and the character that is
taken. What comes of its ways is what comes of the ways behind it. -/
theorem outcome_round {next' current' : Threads} {scratch' scratch'' : Slots}
    (hsound : input.anchored = false → p.PrefilterSound input.hay)
    (hcur : cur ∈ input.hay.cursors)
    (hready : Cache.Ready ⟨current, next, slots, scratch⟩ p.instrs.size width)
    (hplace : p.roundPlace? input matched cur current.set.isEmpty = some place)
    (hstart : p.startThread input matched place current scratch = (current', scratch'))
    (hstep : p.stepThreads current' place.after place.next current'.set.toList next scratch' =
      (complete, next', scratch''))
    (ho : p.Outcome (Fresh (next'.Visited place.next))
      (p.waiting next' place.next ++
        cutOff current' (startingLater input width matched slots place) complete) outcome) :
    p.Outcome (Fresh (current.Visited cur))
      (p.waiting current cur ++ starting input width matched slots cur) outcome := by
  obtain ⟨hcurrent, hnext, hempty, hslots, hscratch⟩ := hready
  have hfits := startThread_fits p input matched place hcurrent hscratch
  have hkept := outcome_startThread p input matched place slots outcome hcurrent hscratch
  rw [hstart] at hfits hkept
  have hstepped := outcome_stepThreads p current' place current'.set.toList next scratch'
    hfits.1 hnext hfits.2 (startingLater input width matched slots place) outcome
  rw [hstep, waiting_of_isEmpty hempty, List.nil_append] at hstepped
  refine outcome_of_roundPlace?_eq_some hsound hcur hplace (hkept ?_)
  -- The ways all go on behind this place, so what has been visited here does not matter to them.
  refine (hstepped ho).congr ?_
  intro d s hd r hr
  have hlt : d.cur.rest.length < place.rest.length := by
    rcases List.mem_append.mp hd with hd | hd
    · exact rest_lt_of_mem_waiting hd
    · exact rest_lt_of_mem_startingLater hd
  rw [fresh_iff_of_isEmpty hempty, fresh_visited_iff hr hlt]

/-- The lists are ready for the next round. -/
theorem ready_round {next' current' : Threads} {scratch' scratch'' : Slots}
    (hready : Cache.Ready ⟨current, next, slots, scratch⟩ n width)
    (hstart : p.startThread input matched place current scratch = (current', scratch'))
    (hstep : p.stepThreads current' place.after place.next current'.set.toList next scratch' =
      (complete, next', scratch'')) :
    Cache.Ready ⟨next', current'.clear, slotsAfter current' slots complete, scratch''⟩ n width ∧
      current'.width = width := by
  obtain ⟨hcurrent, hnext, hempty, hslots, hscratch⟩ := hready
  have hfits := startThread_fits p input matched place hcurrent hscratch
  rw [hstart] at hfits
  have hstepped := stepThreads_fits p current' place.after place.next current'.set.toList next
    scratch' hnext hfits.2
  rw [hstep] at hstepped
  exact ⟨⟨hstepped.1, hfits.1.clear, SparseSet.isEmpty_clear _, size_slotsAfter hslots,
    hstepped.2⟩, hfits.1.width_eq⟩

/-- Where no slots are recorded, one match is like another. -/
theorem outcome_untracked {next' current' : Threads} {ip : Nat} {others : List Pending}
    (hnext : next'.width = 0) (hcurrent : current'.width = 0) (hslots : slots.size = 0) :
    p.Outcome (Fresh (next'.Visited cur))
      (p.waiting next' cur ++ cutOff current' others (some ip)) (some slots) := by
  obtain ⟨o, ho⟩ := p.exists_outcome_fresh (next'.Visited cur)
    (p.waiting next' cur ++ cutOff current' others (some ip))
  have hmem : .complete (current'.row ip) ∈
      p.waiting next' cur ++ cutOff current' others (some ip) := by
    simp [cutOff]
  obtain ⟨s, rfl⟩ := Option.ne_none_iff_exists'.mp (ho.ne_none_of_mem_complete hmem)
  have hsize : s.size = 0 := by
    refine ho.size_slots ?_ s rfl
    intro way hway
    rcases List.mem_append.mp hway with hway | hway
    · rw [size_slots_of_mem_waiting hway, hnext]
    · rw [List.mem_singleton.mp hway, Pending.slots, Threads.size_row, hcurrent]
  rw [Array.size_eq_zero_iff] at hsize hslots
  rw [hslots, ← hsize]
  exact ho

/-- Behind the text there are no ways but the match that is known. -/
theorem outcome_textEnd {current' : Threads} (hempty : next.set.isEmpty = true)
    (hs : slots.size = current'.width) (hr : place.rest = []) :
    p.Outcome (Fresh (next.Visited place.next))
      (p.waiting next place.next ++
        cutOff current' (startingLater input width matched slots place) complete)
      (if matched || complete.isSome then some (slotsAfter current' slots complete) else none) := by
  rw [waiting_of_isEmpty hempty, List.nil_append]
  unfold startingLater
  rw [tail_startsFrom_of_rest_nil hr, List.map_nil]
  cases complete with
  | some ip =>
    simp only [Option.isSome_some, Bool.or_true, if_true, slotsAfter]
    rw [Threads.load_eq_row hs]
    exact .complete
  | none =>
    cases matched with
    | true => exact .complete
    | false => exact .nil

/-- **The rounds of a search without a deadline give the outcome of the ways they begin with.** -/
theorem outcome_rounds (p : Program) (input : Input) (width : Nat) (budget : Option Nat)
    (matched : Bool) (cur : Cursor) (cache : Cache) (hb : budget = none)
    (hsound : input.anchored = false → p.PrefilterSound input.hay)
    (hcur : cur ∈ input.hay.cursors) (hbegun : input.start.offset ≤ cur.offset)
    (hready : cache.Ready p.instrs.size width) :
    ∃ found cache', p.rounds input width budget matched cur cache = (.ok found, cache') ∧
      p.Outcome (Fresh (cache.current.Visited cur))
        (p.waiting cache.current cur ++ starting input width matched cache.slots cur)
        (if found then some cache'.slots else none) := by
  induction budget, matched, cur, cache using rounds.induct p input width with
  | case1 => simp at hb
  | case2 _ _ _ _ _ _ _ hgo hp =>
    exact ⟨_, _, rounds_stop hgo hp, outcome_of_roundPlace?_eq_none hsound hcur hp⟩
  | case3 budget matched cur current next slots scratch hgo place hp current' scratch' hstart next'
      scratch'' ip hw hstep =>
    -- Some match is complete, and its slots need not be known to end here.
    refine ⟨true, _, rounds_untracked hgo hp hstart hstep rfl hw,
      outcome_round hsound hcur hready hp hstart hstep ?_⟩
    obtain ⟨hready', hwidth⟩ := ready_round hready hstart hstep
    rw [if_pos rfl]
    exact outcome_untracked (hready'.current.width_eq.trans hw) (hwidth.trans hw)
      (hready.slots.trans hw)
  | case4 budget matched cur current next slots scratch hgo place hp current' scratch' hstart
      complete next' scratch'' hstep hr htracked =>
    obtain ⟨hready', hwidth⟩ := ready_round hready hstart hstep
    refine ⟨_, _, rounds_textEnd hgo hp hstart hstep hr htracked,
      outcome_round hsound hcur hready hp hstart hstep ?_⟩
    have hnext : next' = next := by
      have hafter : place.after = none := by simp [Cursor.after, hr]
      have hkept := stepThreads_none p current' place.next current'.set.toList next scratch'
      rw [hafter] at hstep
      rw [hstep] at hkept
      exact (Prod.mk.inj hkept).1
    rw [hnext]
    exact outcome_textEnd hready.next_empty (hready.slots.trans hwidth.symm) hr
  | case5 budget matched cur current next slots scratch hgo place hp current' scratch' hstart
      complete next' scratch'' hstep _ slots' c cs hr htracked ih =>
    obtain ⟨hready', hwidth⟩ := ready_round hready hstart hstep
    have hslots : slots' = slotsAfter current' slots complete := by
      cases complete <;> rfl
    have hon := mem_onward_of_roundPlace? hp
    have hin : place ∈ input.hay.cursors := Cursor.mem_onward_trans hcur hon
    have hle : input.start.offset ≤ place.offset :=
      Nat.le_trans hbegun (Cursor.offset_le_of_mem_onward hon)
    -- What the next round begins with is what is left of the ways of this one.
    obtain ⟨found, cache', heq, ho⟩ := ih (by simp [hb]) (Haystack.next_mem_cursors hin)
      (Nat.le_trans hle (Nat.le_of_lt (Cursor.offset_lt_next hr))) (hslots ▸ hready')
    rw [hslots] at heq
    refine ⟨found, cache', (rounds_next hgo hp hstart hstep hr htracked).trans heq,
      outcome_round hsound hcur hready hp hstart hstep ?_⟩
    rw [cutOff_eq (hready.slots.trans hwidth.symm)
      (by rw [startingLater, tail_startsFrom hr hle]), ← hslots]
    exact ho

/-! ## Searches -/

/-- A cache is ready for any program once it is prepared, whatever it was used for before. -/
theorem ready_prepare (cache : Cache) (n width : Nat) : (cache.prepare n width).Ready n width where
  current := (cache.current.fits_prepare n width).clear
  next := (cache.next.fits_prepare n width).clear
  next_empty := SparseSet.isEmpty_clear _
  slots := Array.size_replicate
  scratch := Slots.size_resize _ _

/-- The boundaries where a search may start a thread, in order of preference. -/
def startPlaces (input : Input) : List Cursor :=
  if input.anchored then [input.start] else input.start.onward

theorem startsFrom_start (input : Input) : startsFrom input input.start = startPlaces input := by
  unfold startsFrom startPlaces
  rw [if_pos rfl]

/-- **A search without a deadline gives the outcome of the threads that it may start.** -/
theorem outcome_search (p : Program) (input : Input) (width : Nat) (cache : Cache)
    (hb : input.budget = none) (hsound : input.anchored = false → p.PrefilterSound input.hay)
    (hstart : input.start ∈ input.hay.cursors) :
    ∃ found cache', p.search input width cache = (.ok found, cache') ∧
      p.Outcome List.Nodup
        ((startPlaces input).map fun q => .follow ⟨0, q⟩ (.replicate width none))
        (if found then some cache'.slots else none) := by
  obtain ⟨found, cache', heq, ho⟩ := outcome_rounds p input width input.budget false input.start
    (cache.prepare p.instrs.size width) hb hsound hstart (Nat.le_refl _) (ready_prepare _ _ _)
  have hempty : (cache.prepare p.instrs.size width).current.set.isEmpty = true :=
    SparseSet.isEmpty_clear _
  refine ⟨found, cache', heq, ?_⟩
  rw [waiting_of_isEmpty hempty, List.nil_append] at ho
  rw [← startsFrom_start]
  exact ho.congr fun _ _ _ r _ => fresh_iff_of_isEmpty hempty r

end Program

end LinearRegex
