import LinearRegex.Proofs.Engine.Settled
import LinearRegex.Proofs.Prefilter.Checked
import LinearRegex.Proofs.Program.Bounds

/-!
# Searching with every access checked

The engine once more, where all things are told by numbers and every access is checked: instructions
and brackets by where they lie in the program, members and rows by where they lie in a list of
threads, places in the text by their byte offset. There is no result if an access would lie outside,
if the text would be cut inside a character, or if a loop would run longer than the number it is
given allows.

For compiled programs there always is a result, and it is that of the engine.

Main statement: `Program.search_checked`.
-/

namespace LinearRegex

/-- The place at a byte offset, where a text can be cut: there is none inside a character or beyond
the end. -/
def Haystack.cut? (hay : Haystack) (offset : Nat) : Option Cursor :=
  match hay.cursorAt offset with
  | .ok place => place
  | .error _ => none

theorem Haystack.cut?_offset {hay : Haystack} {cur : Cursor} (h : cur ∈ hay.cursors) :
    hay.cut? cur.offset = some cur := by
  have hle : ¬ hay.size < cur.offset := Nat.not_lt.mpr (offset_le_size h)
  have hcur : hay.start.advanceTo cur.offset = cur := Cursor.advanceTo_offset h
  unfold cut? cursorAt
  rw [if_neg hle]
  dsimp only
  rw [hcur, if_pos rfl]

/-- A frame that refers to an instruction or a slot that is there. -/
def Frame.InBounds (n width : Nat) : Frame → Prop
  | .explore ip => ip < n
  | .restore slot _ => slot < width

namespace Program.Checked

/-! ## Definitions -/

/-- Adds a number to a set, and tells whether it is new. -/
def insert (set : SparseSet) (v : Nat) : Option (Bool × SparseSet) :=
  if v < set.capacity then some (set.insert v) else none

/-- Records the slots of the thread at an instruction in its row. -/
def store (t : Threads) (ip : Nat) (slots : Slots) : Option Threads :=
  if ip * t.width + t.width ≤ t.table.size ∧ slots.size = t.width then some (t.store ip slots)
  else none

/-- Copies the slots of the thread at an instruction from its row. -/
def load (t : Threads) (ip : Nat) (slots : Slots) : Option Slots :=
  if ip * t.width + t.width ≤ t.table.size ∧ slots.size = t.width then some (t.load ip slots)
  else none

/-- Enters an instruction at a byte offset, unless it has been entered before: the list with it, the
slots, and what is to be done next. -/
def enter (p : Program) (hay : Haystack) (offset : Nat) (t : Threads) (slots : Slots) (ip : Nat) :
    Option (Threads × Slots × List Frame) := do
  match ← insert t.set ip with
  | (false, set) => some ({ t with set }, slots, [])
  | (true, set) =>
    match ← p.instrs[ip]? with
    | .jump target => some ({ t with set }, slots, [.explore target])
    | .split primary secondary =>
      some ({ t with set }, slots, [.explore primary, .explore secondary])
    | .save slot =>
      match slots[slot]? with
      | some old =>
        some ({ t with set }, slots.setIfInBounds slot (some offset),
          [.explore (ip + 1), .restore slot old])
      | none => some ({ t with set }, slots, [.explore (ip + 1)])
    | .assertion a =>
      let cur ← hay.cut? offset
      some ({ t with set }, slots, if a.holds cur then [.explore (ip + 1)] else [])
    | _ =>
      let t ← store { t with set } ip slots
      some (t, slots, [])

/-- Follows the threads on a stack at a byte offset, in at most so many steps. -/
def close (p : Program) (hay : Haystack) (offset : Nat) :
    Nat → Threads → Slots → List Frame → Option (Threads × Slots)
  | _, t, slots, [] => some (t, slots)
  | 0, _, _, _ :: _ => none
  | n + 1, t, slots, .restore slot old :: stack =>
    if slot < slots.size then close p hay offset n t (slots.setIfInBounds slot old) stack
    else none
  | n + 1, t, slots, .explore ip :: stack => do
    let (t, slots, frames) ← enter p hay offset t slots ip
    close p hay offset n t slots (frames ++ stack)

/-- As many steps as following a thread takes at most: every instruction is entered once at most,
and each entry leaves one more frame at most. -/
def steps (p : Program) : Nat := 2 * p.instrs.size + 1

/-- Whether an instruction takes the next character, if there is one. -/
def takes (p : Program) : Option Char → Instr → Option Bool
  | none, _ => some false
  | some c, .bracket index => do
    let b ← p.brackets[index]?
    return b.accepts c
  | some c, i => some (p.takes c i)

/-- Lets the threads at some places of a list take the next character. -/
def stepThreads (p : Program) (hay : Haystack) (threads : Threads) (next? : Option Char)
    (behind : Nat) : List Nat → Threads → Slots → Option (Option Nat × Threads × Slots)
  | [], next, scratch => some (none, next, scratch)
  | place :: places, next, scratch => do
    let ip ← threads.set.dense[place]?
    match ← p.instrs[ip]? with
    | .accept => some (some ip, next, scratch)
    | i =>
      if ← takes p next? i then
        let scratch ← load threads ip scratch
        let (next, scratch) ← close p hay behind (steps p) next scratch [.explore (ip + 1)]
        stepThreads p hay threads next? behind places next scratch
      else stepThreads p hay threads next? behind places next scratch

/-- Starts a thread at a byte offset, if one may start there. -/
def startThread (p : Program) (input : Input) (matched : Bool) (offset : Nat) (threads : Threads)
    (scratch : Slots) : Option (Threads × Slots) :=
  if matched || (input.anchored && offset != input.start.offset) then some (threads, scratch)
  else close p input.hay offset (steps p) threads (.replicate scratch.size none) [.explore 0]

/-- The byte offset where a round takes place, or nothing where the search is over. The prefilter
looks at the bytes from an offset on, which must not lie beyond the end. -/
def roundOffset (p : Program) (input : Input) (matched : Bool) (offset : Nat) (idle : Bool) :
    Option (Option Nat) :=
  if idle then
    if matched || (input.anchored && input.start.offset < offset) then some none
    else if input.anchored then some (some offset)
    else if offset ≤ input.hay.size then some (p.prefilter.next? input.hay.bytes offset)
    else none
  else some (some offset)

/-- The slots of the match that is known after a round. -/
def slotsAfter (current : Threads) (slots : Slots) : Option Nat → Option Slots
  | some ip => load current ip slots
  | none => some slots

/-- The rounds of a search from a byte offset on, at most so many. -/
def rounds (p : Program) (input : Input) (width : Nat) :
    Nat → Option Nat → Bool → Nat → Cache → Option (Verdict × Cache)
  | 0, _, _, _, _ => none
  | n + 1, budget, matched, offset, ⟨current, next, slots, scratch⟩ =>
    if budget = some 0 then some (.error ⟨offset⟩, ⟨current, next, slots, scratch⟩)
    else do
      match ← roundOffset p input matched offset current.set.isEmpty with
      | none => some (.ok matched, ⟨current, next, slots, scratch⟩)
      | some offset =>
        let (current, scratch) ← startThread p input matched offset current scratch
        let cur ← input.hay.cut? offset
        let behind := offset + cur.after.elim 0 Char.utf8Size
        let (complete, next, scratch) ←
          stepThreads p input.hay current cur.after behind (List.range current.set.size) next
            scratch
        match complete, width with
        | some _, 0 => some (.ok true, ⟨current, next, slots, scratch⟩)
        | _, _ =>
          let matched := matched || complete.isSome
          let slots ← slotsAfter current slots complete
          match cur.after with
          | none => some (.ok matched, ⟨current, next, slots, scratch⟩)
          | some _ =>
            rounds p input width n (budget.map (· - 1)) matched behind
              ⟨next, current.clear, slots, scratch⟩

/-- A search with every access checked, which looks at each place between characters once at
most. -/
def search (p : Program) (input : Input) (width : Nat) (cache : Cache) :
    Option (Verdict × Cache) :=
  rounds p input width (input.hay.chars.length + 1) input.budget false input.start.offset
    (cache.prepare p.instrs.size width)

/-! ## There is a result -/

variable {p : Program} {hay : Haystack} {cur : Cursor} {width n ip offset : Nat}
variable {t t' : Threads} {slots slots' scratch : Slots} {stack frames : List Frame}

theorem insert_eq {set : SparseSet} (h : ip < set.capacity) :
    insert set ip = some (set.insert ip) := if_pos h

theorem row_le (ht : t.Fits n width) (hip : ip < n) :
    ip * t.width + t.width ≤ t.table.size := by
  have := Nat.mul_le_mul_right width (Nat.succ_le_of_lt hip)
  rw [Nat.succ_mul] at this
  rw [ht.table, ht.width_eq]
  exact this

theorem store_eq (ht : t.Fits n width) (hip : ip < n) (hs : slots.size = width) :
    store t ip slots = some (t.store ip slots) :=
  if_pos ⟨row_le ht hip, hs.trans ht.width_eq.symm⟩

theorem load_eq (ht : t.Fits n width) (hip : ip < n) (hs : slots.size = width) :
    load t ip slots = some (t.load ip slots) :=
  if_pos ⟨row_le ht hip, hs.trans ht.width_eq.symm⟩

/-! ### Following threads -/

/-- How many steps may still be taken with the instructions that are left. -/
def left (set : SparseSet) : Nat := 2 * (set.capacity - set.size)

theorem left_insert {set set' : SparseSet} (h : set.insert ip = (true, set')) :
    left set' + 2 ≤ left set := by
  have := SparseSet.size_lt_of_insert h
  unfold left
  omega

/-- **Entering an instruction of a closed program meets only what is there**, and leads to
instructions that are there. With every instruction that is entered, less is left to be done. -/
theorem exists_enter (hp : p.Closed) (hcur : cur ∈ hay.cursors) (ht : t.Fits p.instrs.size width)
    (hs : slots.size = width) (hip : ip < p.instrs.size) :
    ∃ t' slots' frames, enter p hay cur.offset t slots ip = some (t', slots', frames) ∧
      p.enter cur t slots ip = (t', slots', frames) ∧ t'.Fits p.instrs.size width ∧
      slots'.size = width ∧ (∀ f ∈ frames, f.InBounds p.instrs.size width) ∧
      left t'.set + frames.length ≤ left t.set := by
  have hins := insert_eq (ht.capacity ▸ hip)
  unfold enter Program.enter
  cases hi : t.set.insert ip with
  | mk new set =>
  rw [hi] at hins
  have hfits := ht.insert hi
  cases new with
  | false =>
    obtain rfl := SparseSet.insert_false hi
    simp only [hins, Option.bind_eq_bind, Option.bind_some]
    exact ⟨_, _, _, rfl, rfl, hfits, hs, by simp, Nat.le_refl _⟩
  | true =>
    have hleft := left_insert hi
    have hinstr := Array.getElem?_eq_getElem hip
    have htargets := hp.targets ip _ hinstr
    simp only [hins, hinstr, Option.bind_eq_bind, Option.bind_some]
    -- Each kind of instruction leads to its targets, and at most one frame is left besides.
    cases hx : p.instrs[ip] with
    | jump target =>
      rw [hx] at htargets
      exact ⟨_, _, _, rfl, rfl, hfits, hs,
        List.forall_mem_singleton.mpr (htargets target (by simp [Instr.targets])),
        by simp only [List.length_singleton]; omega⟩
    | split primary secondary =>
      rw [hx] at htargets
      simp only [Instr.targets, List.forall_mem_cons] at htargets
      exact ⟨_, _, _, rfl, rfl, hfits, hs, List.forall_mem_cons.mpr
        ⟨htargets.1, List.forall_mem_singleton.mpr htargets.2.1⟩, hleft⟩
    | save slot =>
      rw [hx] at htargets
      have hnext := htargets (ip + 1) (by simp [Instr.targets])
      dsimp only
      cases hold : slots[slot]? with
      | some old =>
        have hslot : slot < width := hs ▸ (Array.getElem?_eq_some_iff.mp hold).1
        exact ⟨_, _, _, rfl, rfl, hfits, by simpa using hs, List.forall_mem_cons.mpr
          ⟨hnext, List.forall_mem_singleton.mpr hslot⟩, hleft⟩
      | none =>
        exact ⟨_, _, _, rfl, rfl, hfits, hs, List.forall_mem_singleton.mpr hnext,
          by simp only [List.length_singleton]; omega⟩
    | assertion a =>
      rw [hx] at htargets
      have hnext := htargets (ip + 1) (by simp [Instr.targets])
      simp only [Haystack.cut?_offset hcur, Option.bind_some]
      refine ⟨_, _, _, rfl, rfl, hfits, hs, ?_, ?_⟩
      · split
        · exact List.forall_mem_singleton.mpr hnext
        · simp
      · split
        · simp only [List.length_singleton]
          omega
        · simp only [List.length_nil]
          omega
    | _ =>
      simp only [store_eq hfits hip hs, Option.bind_some]
      exact ⟨_, _, _, rfl, rfl, hfits.store ip slots, hs, by simp,
        by simp only [Threads.set_store, List.length_nil]; omega⟩

/-- **Following threads in a closed program meets only what is there.** -/
theorem close_eq (hp : p.Closed) (hcur : cur ∈ hay.cursors) (ht : t.Fits p.instrs.size width)
    (hs : slots.size = width) (hstack : ∀ f ∈ stack, f.InBounds p.instrs.size width)
    (hn : left t.set + stack.length ≤ n) :
    close p hay cur.offset n t slots stack = some (p.close cur t slots stack) := by
  induction n generalizing t slots stack with
  | zero =>
    obtain rfl : stack = [] := List.length_eq_zero_iff.mp (by omega)
    rw [close, Program.close]
  | succ n ih =>
    cases stack with
    | nil => rw [close, Program.close]
    | cons f stack =>
      obtain ⟨hf, hrest⟩ := List.forall_mem_cons.mp hstack
      cases f with
      | restore slot old =>
        rw [close, if_pos (hs ▸ hf), Program.close]
        exact ih ht (by simpa using hs) hrest (Nat.le_of_succ_le_succ hn)
      | explore ip =>
        obtain ⟨t', slots', frames, henter, hsame, ht', hs', hframes, hleft⟩ :=
          exists_enter hp hcur ht hs hf
        rw [close, henter, Option.bind_eq_bind, Option.bind_some, close_explore, hsame]
        refine ih ht' hs' (List.forall_mem_append.mpr ⟨hframes, hrest⟩) ?_
        rw [List.length_cons] at hn
        rw [List.length_append]
        omega

/-- A thread is followed in as many steps as are allowed for it. -/
theorem close_single (hp : p.Closed) (hcur : cur ∈ hay.cursors)
    (ht : t.Fits p.instrs.size width) (hs : slots.size = width) (hip : ip < p.instrs.size) :
    close p hay cur.offset (steps p) t slots [.explore ip] =
      some (p.close cur t slots [.explore ip]) := by
  refine close_eq hp hcur ht hs (List.forall_mem_singleton.mpr hip) ?_
  have := ht.capacity
  simp only [left, steps, List.length_singleton]
  omega

/-! ### Rounds -/

theorem takes_eq (hp : p.InBounds) {i : Instr} (hi : p.instrs[ip]? = some i)
    (next? : Option Char) : takes p next? i = some (next?.any (p.takes · i)) := by
  cases next? with
  | none => rfl
  | some c =>
    cases i with
    | bracket index =>
      have hb := Array.getElem?_eq_getElem (hp.brackets ip index hi)
      simp [takes, Program.takes, hb]
    | _ => rfl

/-- A thread that takes a character goes on to an instruction that is there. -/
theorem succ_lt_of_takes (hp : p.Closed) {i : Instr} (hi : p.instrs[ip]? = some i)
    {next? : Option Char} (h : next?.any (p.takes · i) = true) : ip + 1 < p.instrs.size := by
  obtain ⟨c, -, hc⟩ := (Option.any_eq_true _ _).mp h
  refine hp.targets ip i hi _ ?_
  cases i <;> first | exact List.mem_singleton_self _ | simp [Program.takes] at hc

/-- **The members of a list are instructions that are there, and so are those behind them.** -/
theorem stepThreads_eq (hp : p.InBounds) {behind : Cursor} (hbehind : behind ∈ hay.cursors)
    (next? : Option Char) {next : Threads} (ht : t.Fits p.instrs.size width)
    (hnext : next.Fits p.instrs.size width) (hs : scratch.size = width) {k : Nat} {ips : List Nat}
    (hips : t.set.toList.drop k = ips) :
    stepThreads p hay t next? behind.offset (List.range' k ips.length) next scratch =
      some (p.stepThreads t next? behind ips next scratch) := by
  have member : ∀ {k ip ips}, t.set.toList.drop k = ip :: ips →
      t.set.dense[k]? = some ip ∧ ip < p.instrs.size ∧ t.set.toList.drop (k + 1) = ips := by
    intro k ip ips hips
    have hplace : t.set.dense[k]? = some ip := by
      have hhead := congrArg (·[0]?) hips
      simpa [SparseSet.toList] using hhead
    refine ⟨hplace, ht.capacity ▸ t.set.lt_capacity_of_mem (Array.mem_of_getElem? hplace), ?_⟩
    rw [← List.tail_drop, hips, List.tail_cons]
  fun_induction Program.stepThreads p t next? behind ips next scratch generalizing k with
  | case1 => rfl
  | case2 next scratch ip ips hi ih =>
    rw [Array.getElem?_eq_none_iff] at hi
    exact absurd (member hips).2.1 (Nat.not_lt.mpr hi)
  | case3 next scratch ip ips hi =>
    rw [List.length_cons, List.range'_succ, stepThreads, (member hips).1]
    simp only [hi, Option.bind_eq_bind, Option.bind_some]
  | case4 ip ips next scratch i haccept hi htakes next' scratch' hclose ih =>
    obtain ⟨hplace, hip, htail⟩ := member hips
    have hsize : (t.load ip scratch).size = width := by rw [Threads.size_load, hs]
    have hfits := close_fits p behind next _ [.explore (ip + 1)] hnext hsize
    rw [hclose] at hfits
    have hchecked := close_single hp.toClosed hbehind hnext hsize (succ_lt_of_takes hp.toClosed hi htakes)
    rw [hclose] at hchecked
    rw [List.length_cons, List.range'_succ, stepThreads, hplace]
    simp only [hi, Option.bind_eq_bind, Option.bind_some, takes_eq hp hi, htakes, if_true,
      load_eq ht hip hs, hchecked]
    exact ih hfits.1 hfits.2 htail
  | case5 ip ips next scratch i haccept hi htakes ih =>
    obtain ⟨hplace, -, htail⟩ := member hips
    rw [List.length_cons, List.range'_succ, stepThreads, hplace]
    simp only [hi, Option.bind_eq_bind, Option.bind_some, takes_eq hp hi, htakes,
      Bool.false_eq_true, if_false]
    exact ih hnext hs htail

theorem startThread_eq (hp : p.InBounds) {input : Input} (hcur : cur ∈ input.hay.cursors)
    (matched : Bool) (ht : t.Fits p.instrs.size width) (hs : scratch.size = width) :
    startThread p input matched cur.offset t scratch =
      some (p.startThread input matched cur t scratch) := by
  unfold startThread Program.startThread
  split
  · rfl
  · exact close_single hp.toClosed hcur ht (by rw [Array.size_replicate, hs]) hp.nonempty

/-- The prefilter lands on boundaries. -/
def Lands (p : Program) (hay : Haystack) : Prop :=
  ∀ cur ∈ hay.cursors, ∀ o, p.prefilter.next? hay.bytes cur.offset = some o →
    ∃ q ∈ cur.onward, q.offset = o

theorem roundOffset_eq {input : Input} (hlands : Lands p input.hay)
    (hcur : cur ∈ input.hay.cursors) (matched idle : Bool) :
    roundOffset p input matched cur.offset idle =
      some ((p.roundPlace? input matched cur idle).map Cursor.offset) := by
  unfold roundOffset roundPlace? resume?
  split
  · split
    · rfl
    · split
      · rfl
      · rw [if_pos (Haystack.offset_le_size hcur), Option.map_map]
        cases ho : p.prefilter.next? input.hay.bytes cur.offset with
        | none => rfl
        | some o =>
          obtain ⟨q, hq, rfl⟩ := hlands cur hcur o ho
          simp [Cursor.advanceTo_offset hq]
  · rfl

theorem slotsAfter_eq (ht : t.Fits p.instrs.size width) (hs : slots.size = width)
    {complete : Option Nat} (hc : ∀ ip, complete = some ip → ip < p.instrs.size) :
    slotsAfter t slots complete = some (Program.slotsAfter t slots complete) := by
  cases complete with
  | none => rfl
  | some ip => exact load_eq ht (hc ip rfl) hs

/-- A thread that is complete is one of those that are asked. -/
theorem mem_of_stepThreads {next? : Option Char} {behind : Cursor} {ips : List Nat}
    {next : Threads} (h : (p.stepThreads t next? behind ips next scratch).1 = some ip) :
    ip ∈ ips := by
  fun_induction Program.stepThreads p t next? behind ips next scratch with
  | case1 => simp at h
  | case2 _ _ _ _ _ ih => exact List.mem_cons_of_mem _ (ih h)
  | case3 => exact Option.some.inj h ▸ List.mem_cons_self
  | case4 _ _ _ _ _ _ _ _ _ _ _ ih => exact List.mem_cons_of_mem _ (ih h)
  | case5 _ _ _ _ _ _ _ _ ih => exact List.mem_cons_of_mem _ (ih h)

theorem offset_behind (cur : Cursor) :
    cur.offset + cur.after.elim 0 Char.utf8Size = cur.next.offset := by
  obtain ⟨offset, before, rest⟩ := cur
  cases rest <;> rfl

/-- What happens in a round: the thread that is started, those that take the next character, and
the slots of the match that is known then. -/
theorem round_eq (hp : p.InBounds) {input : Input} {matched : Bool} {place : Cursor}
    {current next current' next' : Threads} {scratch' scratch'' : Slots} {complete : Option Nat}
    (hin : place ∈ input.hay.cursors)
    (hready : Cache.Ready ⟨current, next, slots, scratch⟩ p.instrs.size width)
    (hstart : p.startThread input matched place current scratch = (current', scratch'))
    (hstep : p.stepThreads current' place.after place.next current'.set.toList next scratch' =
      (complete, next', scratch'')) :
    startThread p input matched place.offset current scratch = some (current', scratch') ∧
      stepThreads p input.hay current' place.after place.next.offset
        (List.range current'.set.size) next scratch' = some (complete, next', scratch'') ∧
      slotsAfter current' slots complete = some (Program.slotsAfter current' slots complete) := by
  obtain ⟨hcurrent, hnext, -, hslots, hscratch⟩ := hready
  have hstarted := startThread_eq hp hin matched hcurrent hscratch
  have hfits := startThread_fits p input matched place hcurrent hscratch
  rw [hstart] at hstarted hfits
  have hstepped := stepThreads_eq hp (Haystack.next_mem_cursors hin) place.after hfits.1 hnext
    hfits.2 (k := 0) rfl
  rw [List.drop_zero, hstep, ← List.range_eq_range'] at hstepped
  refine ⟨hstarted, hstepped, slotsAfter_eq hfits.1 hslots fun ip hip => ?_⟩
  have hmem : ip ∈ current'.set.toList := mem_of_stepThreads (by rw [hstep]; exact hip)
  exact hfits.1.capacity ▸ current'.set.lt_capacity_of_mem (Array.mem_toList_iff.mp hmem)

/-- **All rounds meet only what is there.** -/
theorem rounds_eq (hp : p.InBounds) {input : Input} (hlands : Lands p input.hay)
    {budget : Option Nat} {matched : Bool} {cache : Cache} (hcur : cur ∈ input.hay.cursors)
    (hready : cache.Ready p.instrs.size width) (hn : cur.rest.length < n) :
    rounds p input width n budget matched cur.offset cache =
      some (p.rounds input width budget matched cur cache) := by
  obtain ⟨n, rfl⟩ := Nat.exists_eq_add_one.mpr (Nat.lt_of_le_of_lt (Nat.zero_le _) hn)
  have hin : ∀ {cur place idle matched}, cur ∈ input.hay.cursors →
      p.roundPlace? input matched cur idle = some place → place ∈ input.hay.cursors :=
    fun hcur hplace => Cursor.mem_onward_trans hcur (mem_onward_of_roundPlace? hplace)
  induction budget, matched, cur, cache using Program.rounds.induct p input width
    generalizing n with
  | case1 matched cur current next slots scratch =>
    rw [rounds, if_pos rfl, Program.rounds, if_pos rfl]
  | case2 budget matched cur current next slots scratch hb hplace =>
    rw [rounds, if_neg hb, roundOffset_eq hlands hcur, hplace, rounds_stop hb hplace]
    simp only [Option.bind_eq_bind, Option.bind_some, Option.map_none]
  | case3 budget matched cur current next slots scratch hb place hplace current' scratch' hstart
      next' scratch'' ip hw hstep =>
    have hin := hin hcur hplace
    obtain ⟨hstarted, hstepped, -⟩ := round_eq hp hin hready hstart hstep
    rw [rounds, if_neg hb, roundOffset_eq hlands hcur, hplace,
      rounds_untracked hb hplace hstart hstep rfl hw]
    subst hw
    simp only [Option.bind_eq_bind, Option.bind_some, Option.map_some, hstarted,
      Haystack.cut?_offset hin, offset_behind, hstepped]
  | case4 budget matched cur current next slots scratch hb place hplace current' scratch' hstart
      complete next' scratch'' hstep hr hgo =>
    have hin := hin hcur hplace
    obtain ⟨hstarted, hstepped, hslots⟩ := round_eq hp hin hready hstart hstep
    have hafter : place.after = none := by rw [Cursor.after, hr, List.head?_nil]
    rw [rounds, if_neg hb, roundOffset_eq hlands hcur, hplace,
      rounds_textEnd hb hplace hstart hstep hr hgo]
    simp only [Option.bind_eq_bind, Option.bind_some, Option.map_some, hstarted,
      Haystack.cut?_offset hin, offset_behind, hstepped, hslots]
    rw [hafter]
  | case5 budget matched cur current next slots scratch hb place hplace current' scratch' hstart
      complete next' scratch'' hstep _ _ c cs hr hgo ih =>
    have hin := hin hcur hplace
    obtain ⟨hstarted, hstepped, hslots⟩ := round_eq hp hin hready hstart hstep
    have hafter : place.after = some c := by rw [Cursor.after, hr, List.head?_cons]
    rw [rounds, if_neg hb, roundOffset_eq hlands hcur, hplace,
      rounds_next hb hplace hstart hstep hr hgo]
    simp only [Option.bind_eq_bind, Option.bind_some, Option.map_some, hstarted,
      Haystack.cut?_offset hin, offset_behind, hstepped, hslots]
    -- The next round takes place behind a character, so less of the text is left.
    have hlt := Cursor.rest_next_lt hafter
    have hle := roundPlace?_rest_length hplace
    have hready' := (ready_round hready hstart hstep).1
    obtain ⟨n, rfl⟩ : ∃ m, n = m + 1 := ⟨n - 1, by omega⟩
    rw [hafter]
    cases complete <;>
      exact ih (Haystack.next_mem_cursors hin) hready' n (by omega)

end Program.Checked

namespace Program

variable {p : Program} {hay : Haystack} {start : Cursor}

/-- **No access of a search lies outside.** For every pattern that is compiled, every cache and
every place to start at, the search with every access checked has a result, which is that of the
search; and so has the prefilter. -/
theorem search_checked {limit : Nat} {pattern : Pattern} (hcompile : compile limit pattern = .ok p)
    (hstart : start ∈ hay.cursors) (anchored : Bool) (budget : Option Nat) (width : Nat)
    (cache : Cache) :
    Checked.search p { hay, start, anchored, budget } width cache =
        some (p.search { hay, start, anchored, budget } width cache) ∧
      Beginning.Checked.prefilter pattern.node = some p.prefilter := by
  obtain ⟨exit, hc, -⟩ := compile_layout hcompile
  have hlands : Checked.Lands p hay := by
    intro cur hcur o ho
    rw [hc.prefilter] at ho
    exact Node.exists_boundary_of_next? hcur ho
  refine ⟨?_, by rw [hc.prefilter, Beginning.Checked.prefilter_eq]⟩
  have hlen := Cursor.rest_length_le_of_mem_onward hstart
  exact Checked.rounds_eq (compile_inBounds hcompile) hlands hstart (ready_prepare _ _ _)
    (Nat.lt_succ_of_le hlen)

/-- A literal that ends within a character, a cache that another program has left, and a start
behind the first character. -/
theorem search_checked_shared_byte : ∃ pattern p, Pattern.parse "é|è" {} = .ok pattern ∧
    compile 100 pattern = .ok p ∧ (Haystack.ofString "aéè").start.next ∈
      (Haystack.ofString "aéè").cursors ∧
    ∀ other : Program, ∀ cache,
      Checked.search p { hay := .ofString "aéè", start := (Haystack.ofString "aéè").start.next } 2
          (other.search
            { hay := .ofString "aéè", start := (Haystack.ofString "aéè").start } 4 cache).2 =
        some (p.search
          { hay := .ofString "aéè", start := (Haystack.ofString "aéè").start.next } 2
          (other.search
            { hay := .ofString "aéè", start := (Haystack.ofString "aéè").start } 4 cache).2) ∧
      Beginning.Checked.prefilter pattern.node = some p.prefilter := by
  obtain ⟨pattern, hparse, p, hcompile⟩ : ∃ pattern, Pattern.parse "é|è" {} = .ok pattern ∧
      ∃ p, compile 100 pattern = .ok p := by
    with_unfolding_all exact ⟨_, rfl, _, rfl⟩
  have hnext := Haystack.next_mem_cursors (Haystack.start_mem_cursors (.ofString "aéè"))
  exact ⟨pattern, p, hparse, hcompile, hnext,
    fun other cache => search_checked hcompile hnext false none 2 _⟩

end Program

end LinearRegex
