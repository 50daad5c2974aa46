import LinearRegex.Proofs.Engine.Closure

/-!
# What the rounds of a search do

A search at a place stands for ways in order of preference: those of the threads that wait there,
and behind them those of the threads that may still be started, or the match that has been found.
Each round keeps their outcome: taking a character follows the waiting threads one step on, a thread
that is complete cuts off what is behind it, and the prefilter leaves out starts without a match.

Main statements: one for each part of a round, `outcome_of_roundPlace?_eq_some`,
`outcome_startThread` and `outcome_stepThreads`.
-/

namespace LinearRegex

namespace Program

variable {p : Program} {cur : Cursor} {width n : Nat} {others : List Pending}
variable {outcome : Option Slots}

/-! ## Taking a character -/

theorem waits_of_takes {ch : Char} {i : Instr} (h : p.takes ch i = true) :
    i.waits = true ∧ i ≠ .accept := by
  cases i with
  | accept => simp [takes] at h
  | assertion _ => simp [takes] at h
  | split _ _ => simp [takes] at h
  | jump _ => simp [takes] at h
  | save _ => simp [takes] at h
  | _ => exact ⟨rfl, by simp⟩

/-- A thread that takes the next character goes on behind it. -/
theorem waitingAt_of_takes {current : Threads} {ip : Nat} {i : Instr}
    (hi : p.instrs[ip]? = some i) (ht : cur.after.any (p.takes · i) = true) :
    p.waitingAt current cur ip = [.follow ⟨ip + 1, cur.next⟩ (current.row ip)] := by
  obtain ⟨ch, -, hch⟩ := (Option.any_eq_true _ _).mp ht
  obtain ⟨hw, hne⟩ := waits_of_takes hch
  have hsome : p.instrs[ip]?.any Instr.waits = true := by
    rw [hi]
    exact hw
  have hcfg : p.instrs[(⟨ip, cur⟩ : Config).ip]? = some i := hi
  unfold waitingAt
  rw [if_pos hsome, expand_of_not_accept hcfg hne, successors_of_waits hcfg hw, if_pos ht,
    List.map_singleton, recordAt_of_waits hcfg hw]

/-- A thread that takes the next character is followed behind it. -/
theorem stepThreads_of_takes {current next : Threads} {scratch : Slots} {ip : Nat} {i : Instr}
    {next? : Option Char} {behind : Cursor} {ips : List Nat} (hx : p.instrs[ip]? = some i)
    (hne : i ≠ .accept) (htakes : next?.any (p.takes · i) = true) :
    p.stepThreads current next? behind (ip :: ips) next scratch =
      p.stepThreads current next? behind ips
        (p.close behind next (current.load ip scratch) [.explore (ip + 1)]).1
        (p.close behind next (current.load ip scratch) [.explore (ip + 1)]).2 := by
  rw [stepThreads, hx]
  cases i with
  | accept => exact absurd rfl hne
  | _ => exact if_pos htakes

/-- A thread that does not take it is left behind. -/
theorem stepThreads_of_not_takes {current next : Threads} {scratch : Slots} {ip : Nat} {i : Instr}
    {next? : Option Char} {behind : Cursor} {ips : List Nat} (hx : p.instrs[ip]? = some i)
    (hne : i ≠ .accept) (htakes : ¬ next?.any (p.takes · i) = true) :
    p.stepThreads current next? behind (ip :: ips) next scratch =
      p.stepThreads current next? behind ips next scratch := by
  rw [stepThreads, hx]
  cases i with
  | accept => exact absurd rfl hne
  | _ => exact if_neg htakes

/-- A thread that does not take the next character goes on nowhere. -/
theorem waitingAt_of_not_takes {current : Threads} {ip : Nat} {i : Instr}
    (hi : p.instrs[ip]? = some i) (hne : i ≠ .accept)
    (ht : ¬ cur.after.any (p.takes · i) = true) : p.waitingAt current cur ip = [] := by
  have hcfg : p.instrs[(⟨ip, cur⟩ : Config).ip]? = some i := hi
  unfold waitingAt
  split
  · next hsome =>
    have hw : i.waits = true := by
      rw [hi] at hsome
      exact hsome
    rw [expand_of_not_accept hcfg hne, successors_of_waits hcfg hw, if_neg ht]
    rfl
  · rfl

theorem waitingAt_accept {current : Threads} {ip : Nat} (hi : p.instrs[ip]? = some .accept) :
    p.waitingAt current cur ip = [.complete (current.row ip)] := by
  unfold waitingAt
  rw [hi]
  exact if_pos hi

theorem waitingAt_missing {current : Threads} {ip : Nat} (hi : p.instrs[ip]? = none) :
    p.waitingAt current cur ip = [] := by
  unfold waitingAt
  rw [hi]
  rfl

theorem stepThreads_fits (p : Program) (current : Threads) (next? : Option Char) (behind : Cursor)
    (ips : List Nat) (next : Threads) (scratch : Slots) (hnext : next.Fits n width)
    (hs : scratch.size = width) :
    (p.stepThreads current next? behind ips next scratch).2.1.Fits n width ∧
      (p.stepThreads current next? behind ips next scratch).2.2.size = width := by
  fun_induction stepThreads p current next? behind ips next scratch with
  | case1 => exact ⟨hnext, hs⟩
  | case2 _ _ _ _ _ ih => exact ih hnext hs
  | case3 => exact ⟨hnext, hs⟩
  | case4 ip _ next scratch _ _ _ _ next' scratch' hclose ih =>
    have hfits := close_fits p behind next (current.load ip scratch) [.explore (ip + 1)] hnext
      (by rw [Threads.size_load]; exact hs)
    rw [hclose] at hfits
    exact ih hfits.1 hfits.2
  | case5 _ _ _ _ _ _ _ _ ih => exact ih hnext hs

/-- The ways behind those of the stepped threads: a thread that is complete cuts off the others. -/
def cutOff (current : Threads) (others : List Pending) : Option Nat → List Pending
  | none => others
  | some ip => [.complete (current.row ip)]

/-- **Letting threads take the next character keeps the outcome of their ways.** -/
theorem outcome_stepThreads (p : Program) (current : Threads) (cur : Cursor) (ips : List Nat)
    (next : Threads) (scratch : Slots) (hcurrent : current.Fits p.instrs.size width)
    (hnext : next.Fits p.instrs.size width) (hs : scratch.size = width) (others : List Pending)
    (outcome : Option Slots)
    (ho : p.Outcome
      (Fresh ((p.stepThreads current cur.after cur.next ips next scratch).2.1.Visited cur.next))
      (p.waiting (p.stepThreads current cur.after cur.next ips next scratch).2.1 cur.next ++
        cutOff current others (p.stepThreads current cur.after cur.next ips next scratch).1)
      outcome) :
    p.Outcome (Fresh (next.Visited cur.next))
      (p.waiting next cur.next ++ (ips.flatMap (p.waitingAt current cur) ++ others)) outcome := by
  fun_induction stepThreads p current cur.after cur.next ips next scratch with
  | case1 => exact ho
  | case2 _ _ ip _ hi ih =>
    rw [List.flatMap_cons, waitingAt_missing hi]
    exact ih hnext hs ho
  | case3 _ _ ip _ hi =>
    rw [List.flatMap_cons, waitingAt_accept hi]
    exact ho.append_complete
  | case4 ip ips next scratch i _ hi ht next' scratch' hclose ih =>
    have hload : current.load ip scratch = current.row ip :=
      Threads.load_eq_row (by rw [hs, hcurrent.width_eq])
    have hsize : (current.load ip scratch).size = width := by
      rw [Threads.size_load]
      exact hs
    have hfits := close_fits p cur.next next (current.load ip scratch) [.explore (ip + 1)] hnext
      hsize
    rw [hclose] at hfits
    have hrec := ih hfits.1 hfits.2 ho
    rw [List.flatMap_cons, waitingAt_of_takes hi ht, ← hload]
    refine outcome_close p cur.next next _ [.explore (ip + 1)] hnext hsize ?_
    rw [hclose]
    exact hrec
  | case5 _ _ ip _ i hne hi ht ih =>
    rw [List.flatMap_cons, waitingAt_of_not_takes hi hne ht]
    exact ih hnext hs ho

/-! ## Starting threads -/

/-- Where threads may still be started from a place on. -/
def startsFrom (input : Input) (cur : Cursor) : List Cursor :=
  if input.anchored then if cur.offset = input.start.offset then [cur] else [] else cur.onward

/-- The ways behind those of the waiting threads: the match that has been found, or the threads
that may still be started. -/
def starting (input : Input) (width : Nat) (matched : Bool) (slots : Slots) (cur : Cursor) :
    List Pending :=
  if matched then [.complete slots]
  else (startsFrom input cur).map fun q => .follow ⟨0, q⟩ (.replicate width none)

/-- The prefilter never goes beyond a place where a match begins. -/
def PrefilterSound (p : Program) (hay : Haystack) : Prop :=
  ∀ cur ∈ hay.cursors, ∀ q ∈ cur.onward, (∃ r, p.Accepts ⟨0, q⟩ r) →
    ∃ o, p.prefilter.next? hay.bytes cur.offset = some o ∧ o ≤ q.offset

/-- Which ways remain when the thread of this place has been started. -/
def startingLater (input : Input) (width : Nat) (matched : Bool) (slots : Slots) (cur : Cursor) :
    List Pending :=
  if matched then [.complete slots]
  else (startsFrom input cur).tail.map fun q => .follow ⟨0, q⟩ (.replicate width none)

variable {input : Input} {matched : Bool} {slots : Slots} {current : Threads} {place : Cursor}

theorem startsFrom_eq_nil (ha : input.anchored = true) (h : cur.offset ≠ input.start.offset) :
    startsFrom input cur = [] := by
  unfold startsFrom
  rw [if_pos ha, if_neg h]

theorem tail_onward_of_rest_nil (h : cur.rest = []) : cur.onward.tail = [] := by
  rw [Cursor.onward_of_rest_nil h]
  rfl

/-- Nothing is left to be started behind the end of the text. -/
theorem tail_startsFrom_of_rest_nil (h : cur.rest = []) : (startsFrom input cur).tail = [] := by
  unfold startsFrom
  split
  · split <;> rfl
  · exact tail_onward_of_rest_nil h

/-- What is started behind a place is what is started from the next one on. -/
theorem tail_startsFrom {c : Char} {cs : List Char} (h : cur.rest = c :: cs)
    (hbegun : input.start.offset ≤ cur.offset) :
    (startsFrom input cur).tail = startsFrom input cur.next := by
  have hlt := Cursor.offset_lt_next h
  unfold startsFrom
  split
  · rw [if_neg (show ¬ cur.next.offset = input.start.offset by omega)]
    split <;> rfl
  · rw [Cursor.onward_of_rest_cons h]
    rfl

theorem rest_lt_of_mem_tail_startsFrom {q : Cursor} (h : q ∈ (startsFrom input cur).tail) :
    q.rest.length < cur.rest.length := by
  unfold startsFrom at h
  split at h
  · split at h <;> simp at h
  · cases hr : cur.rest with
    | nil =>
      rw [tail_onward_of_rest_nil hr] at h
      simp at h
    | cons c cs =>
      rw [Cursor.onward_of_rest_cons hr, List.tail_cons] at h
      have := Cursor.rest_length_le_of_mem_onward h
      rw [Cursor.rest_next hr] at this
      exact Nat.lt_succ_of_le this

theorem rest_lt_of_mem_startingLater {d : Config} {s : Slots}
    (h : .follow d s ∈ startingLater input width matched slots cur) :
    d.cur.rest.length < cur.rest.length := by
  unfold startingLater at h
  split at h
  · simp at h
  · obtain ⟨q, hq, heq⟩ := List.mem_map.mp h
    obtain ⟨rfl, -⟩ := Pending.follow.inj heq
    exact rest_lt_of_mem_tail_startsFrom hq

/-! ## Where a round takes place -/

theorem waiting_of_isEmpty (h : current.set.isEmpty = true) : p.waiting current cur = [] := by
  unfold waiting
  rw [(SparseSet.toList_eq_nil_iff _).mpr h]
  rfl

theorem fresh_iff_of_isEmpty (h : current.set.isEmpty = true) (r : List Config) :
    Fresh (current.Visited cur) r ↔ r.Nodup := by
  refine ⟨And.left, fun hn => ⟨hn, ?_⟩⟩
  rintro x - ⟨-, hx⟩
  rw [SparseSet.contains_iff_mem_toList, (SparseSet.toList_eq_nil_iff _).mpr h] at hx
  simp at hx

/-- Starts without a match behind them make no difference. -/
theorem outcome_skip_starts {allowed : List Config → Prop} {starts : List Cursor} {empty : Slots}
    {ways : List Pending} (h : ∀ q ∈ starts, ∀ r, ¬ p.Accepts ⟨0, q⟩ r)
    (ho : p.Outcome allowed ways outcome) :
    p.Outcome allowed ((starts.map fun q => .follow ⟨0, q⟩ empty) ++ ways) outcome := by
  refine ho.append_left_of_forall_not ?_
  intro way hway
  obtain ⟨q, hq, rfl⟩ := List.mem_map.mp hway
  refine ⟨_, _, rfl, ?_⟩
  intro r hr _
  exact h q hq r hr

/-- The search is over: no thread is left, and none may be started that leads to a match. -/
theorem outcome_of_roundPlace?_eq_none
    (hsound : input.anchored = false → p.PrefilterSound input.hay) (hcur : cur ∈ input.hay.cursors)
    (h : p.roundPlace? input matched cur current.set.isEmpty = none) :
    p.Outcome (Fresh (current.Visited cur))
      (p.waiting current cur ++ starting input width matched slots cur)
      (if matched then some slots else none) := by
  unfold roundPlace? at h
  split at h
  · next hidle =>
    rw [waiting_of_isEmpty hidle, List.nil_append]
    unfold starting
    cases matched with
    | true => exact .complete
    | false =>
      unfold resume? at h
      by_cases ha : input.anchored = true
      · simp only [ha, Bool.false_or, Bool.true_and, decide_eq_true_eq, if_true] at h
        have hlt : input.start.offset < cur.offset := by
          by_cases hlt : input.start.offset < cur.offset
          · exact hlt
          · rw [if_neg hlt] at h
            simp at h
        simp only [Bool.false_eq_true, if_false, startsFrom_eq_nil ha (Nat.ne_of_gt hlt)]
        exact .nil
      · rw [Bool.not_eq_true] at ha
        simp only [ha, Bool.false_or, Bool.false_and, Bool.false_eq_true, if_false,
          Option.map_eq_none_iff] at h
        simp only [Bool.false_eq_true, if_false, startsFrom, ha]
        -- A match behind this place would be a place where the prefilter goes on.
        have hnone : ∀ q ∈ cur.onward, ∀ r, ¬ p.Accepts ⟨0, q⟩ r := by
          intro q hq r hr
          obtain ⟨o, ho, -⟩ := hsound ha cur hcur q hq ⟨r, hr⟩
          rw [h] at ho
          simp at ho
        exact List.append_nil (List.map _ _) ▸ outcome_skip_starts hnone .nil
  · simp at h

/-- The search goes on: the starts that are left out lead to no match. -/
theorem outcome_of_roundPlace?_eq_some
    (hsound : input.anchored = false → p.PrefilterSound input.hay) (hcur : cur ∈ input.hay.cursors)
    (h : p.roundPlace? input matched cur current.set.isEmpty = some place)
    (ho : p.Outcome (Fresh (current.Visited place))
      (p.waiting current place ++ starting input width matched slots place) outcome) :
    p.Outcome (Fresh (current.Visited cur))
      (p.waiting current cur ++ starting input width matched slots cur) outcome := by
  unfold roundPlace? at h
  split at h
  · next hidle =>
    rw [waiting_of_isEmpty hidle, List.nil_append] at ho ⊢
    have ho : p.Outcome (Fresh (current.Visited cur))
        (starting input width matched slots place) outcome :=
      ho.congr fun _ _ _ r _ => by rw [fresh_iff_of_isEmpty hidle, fresh_iff_of_isEmpty hidle]
    unfold resume? at h
    split at h
    · simp at h
    · next hgo =>
      have hm : matched = false := by
        rw [Bool.not_eq_true, Bool.or_eq_false_iff] at hgo
        exact hgo.1
      split at h
      · rw [← Option.some.inj h] at ho
        exact ho
      · next ha =>
        rw [Bool.not_eq_true] at ha
        obtain ⟨o, hnext, rfl⟩ := Option.map_eq_some_iff.mp h
        obtain ⟨before, heq, hbefore⟩ := cur.onward_advanceTo o
        simp only [starting, hm, startsFrom, ha, Bool.false_eq_true, if_false] at ho ⊢
        rw [heq, List.map_append]
        refine outcome_skip_starts ?_ ho
        -- A match before that place would be a place where the prefilter does not go beyond.
        intro q hq r hr
        obtain ⟨o', ho', hle⟩ :=
          hsound ha cur hcur q (heq ▸ List.mem_append_left _ hq) ⟨r, hr⟩
        have hlt := hbefore q hq
        rw [hnext] at ho'
        rw [Option.some.inj ho'] at hlt
        omega
  · rw [← Option.some.inj h] at ho
    exact ho

theorem mem_onward_of_roundPlace? {idle : Bool}
    (h : p.roundPlace? input matched cur idle = some place) : place ∈ cur.onward := by
  unfold roundPlace? at h
  split at h
  · unfold resume? at h
    split at h
    · simp at h
    · split at h
      · rw [← Option.some.inj h]
        exact cur.mem_onward_self
      · obtain ⟨o, -, rfl⟩ := Option.map_eq_some_iff.mp h
        exact cur.advanceTo_mem_onward o
  · rw [← Option.some.inj h]
    exact cur.mem_onward_self

/-! ## Starting a thread -/

theorem startThread_fits (p : Program) (input : Input) (matched : Bool) (cur : Cursor)
    {scratch : Slots} (hc : current.Fits n width) (hs : scratch.size = width) :
    (p.startThread input matched cur current scratch).1.Fits n width ∧
      (p.startThread input matched cur current scratch).2.size = width := by
  unfold startThread
  split
  · exact ⟨hc, hs⟩
  · exact close_fits p cur current _ _ hc (by rw [Array.size_replicate]; exact hs)

/-- Starting a thread where one may start keeps the outcome. -/
theorem outcome_startThread (p : Program) (input : Input) (matched : Bool) (cur : Cursor)
    (slots : Slots) (outcome : Option Slots) {scratch : Slots}
    (hc : current.Fits p.instrs.size width) (hs : scratch.size = width)
    (ho : p.Outcome (Fresh ((p.startThread input matched cur current scratch).1.Visited cur))
      (p.waiting (p.startThread input matched cur current scratch).1 cur ++
        startingLater input width matched slots cur) outcome) :
    p.Outcome (Fresh (current.Visited cur))
      (p.waiting current cur ++ starting input width matched slots cur) outcome := by
  unfold startThread at ho
  cases matched with
  | true => exact ho
  | false =>
    simp only [Bool.false_or, Bool.and_eq_true, bne_iff_ne, ne_eq] at ho
    -- An anchored search that has left its start has nothing to start any more.
    by_cases hskip : input.anchored = true ∧ ¬ cur.offset = input.start.offset
    · rw [if_pos hskip] at ho
      simp only [startingLater, startsFrom_eq_nil hskip.1 hskip.2, List.tail_nil] at ho
      simp only [starting, startsFrom_eq_nil hskip.1 hskip.2]
      exact ho
    · rw [if_neg hskip, hs] at ho
      have hstarts : startsFrom input cur = cur :: (startsFrom input cur).tail := by
        unfold startsFrom
        split
        · next ha =>
          rw [if_pos (by simpa [ha] using hskip)]
          rfl
        · cases hr : cur.rest with
          | nil => simp [Cursor.onward_of_rest_nil hr]
          | cons c cs => simp [Cursor.onward_of_rest_cons hr]
      have hrec := outcome_close p cur current (.replicate width none) [.explore 0] hc
        Array.size_replicate ho
      simp only [starting, Bool.false_eq_true, if_false]
      rw [hstarts]
      exact hrec

end Program

end LinearRegex
