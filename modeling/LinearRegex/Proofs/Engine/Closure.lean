import LinearRegex.Engine.Closure
import LinearRegex.Proofs.Engine.Threads
import LinearRegex.Proofs.Run.Outcome

/-!
# What following threads does

A list of threads at a place, with the frames on the stack, stands for ways in order of preference:
first those of the threads that wait, then those of the frames. Each round of the closure keeps
their outcome: an instruction that is entered is followed one step on, one that has been entered
before leads to no fresh run.

Main statement: `outcome_close`.
-/

namespace LinearRegex

/-- The ways that the frames on a stack stand for, given the slots of the thread on top. -/
def Frame.ways (cur : Cursor) : Slots → List Frame → List Pending
  | _, [] => []
  | slots, .explore ip :: stack => .follow ⟨ip, cur⟩ slots :: ways cur slots stack
  | slots, .restore slot old :: stack => ways cur (slots.setIfInBounds slot old) stack

/-- The configurations that are visited when some instructions have been entered at a place. -/
def Threads.Visited (t : Threads) (cur : Cursor) (c : Config) : Prop :=
  c.cur = cur ∧ t.set.contains c.ip = true

namespace Program

variable {p : Program} {t : Threads} {cur : Cursor} {c d : Config} {ip width : Nat}
variable {slots : Slots} {others : List Pending} {outcome : Option Slots} {r : List Config}

/-- The ways of the thread at an instruction, if it waits there. -/
def waitingAt (p : Program) (t : Threads) (cur : Cursor) (ip : Nat) : List Pending :=
  if p.instrs[ip]?.any Instr.waits then p.expand ⟨ip, cur⟩ (t.row ip) else []

/-- The ways of the threads that wait. -/
def waiting (p : Program) (t : Threads) (cur : Cursor) : List Pending :=
  t.set.toList.flatMap (p.waitingAt t cur)

/-! ## Threads that wait -/

theorem recordAt_of_waits {i : Instr} (hi : p.instrs[c.ip]? = some i) (hw : i.waits = true) :
    p.recordAt c slots = slots := by
  unfold recordAt
  rw [hi]
  cases i <;> first | rfl | simp [Instr.waits] at hw

theorem rest_lt_of_mem_expand {i : Instr} (hi : p.instrs[c.ip]? = some i) (hw : i.waits = true)
    {s : Slots} (h : .follow d s ∈ p.expand c slots) :
    d.cur.rest.length < c.cur.rest.length := by
  unfold expand at h
  split at h
  · simp at h
  · obtain ⟨e, he, heq⟩ := List.mem_map.mp h
    obtain ⟨rfl, -⟩ := Pending.follow.inj heq
    rw [successors_of_waits hi hw] at he
    split at he
    · next ha =>
      rw [List.mem_singleton.mp he]
      obtain ⟨ch, hch, -⟩ := (Option.any_eq_true _ _).mp ha
      exact Cursor.rest_next_lt hch
    · simp at he

/-- The threads that wait go on behind the place. -/
theorem rest_lt_of_mem_waiting {s : Slots} (h : .follow d s ∈ p.waiting t cur) :
    d.cur.rest.length < cur.rest.length := by
  obtain ⟨ip, -, hip⟩ := List.mem_flatMap.mp h
  unfold waitingAt at hip
  split at hip
  · next hw =>
    obtain ⟨i, hi, hwi⟩ := (Option.any_eq_true _ _).mp hw
    exact rest_lt_of_mem_expand hi hwi hip
  · simp at hip

/-- What has been visited at a place says nothing of runs that begin behind it. -/
theorem fresh_visited_iff (hr : p.Accepts d r) (hlt : d.cur.rest.length < cur.rest.length) :
    Fresh (t.Visited cur) r ↔ r.Nodup := by
  refine ⟨And.left, fun hn => ⟨hn, ?_⟩⟩
  rintro x hx ⟨hcur, -⟩
  have := hr.rest_length_le x hx
  rw [hcur] at this
  omega

/-- The slots of all ways of waiting threads are as wide as the table. -/
theorem size_slots_of_mem_waiting {way : Pending} (h : way ∈ p.waiting t cur) :
    way.slots.size = t.width := by
  obtain ⟨ip, -, hip⟩ := List.mem_flatMap.mp h
  unfold waitingAt at hip
  split at hip
  · unfold expand at hip
    split at hip
    · rw [List.mem_singleton.mp hip]
      exact t.size_row ip
    · obtain ⟨d, -, rfl⟩ := List.mem_map.mp hip
      rw [Pending.slots, size_recordAt]
      exact t.size_row ip
  · simp at hip

/-! ## Entering an instruction -/

/-- Rows that stay the same give the same ways. -/
theorem waiting_congr {l : List Nat} {t u : Threads} (h : ∀ ip ∈ l, t.row ip = u.row ip) :
    l.flatMap (p.waitingAt t cur) = l.flatMap (p.waitingAt u cur) := by
  induction l with
  | nil => rfl
  | cons ip l ih =>
    rw [List.flatMap_cons, List.flatMap_cons, ih fun jp hj => h jp (List.mem_cons_of_mem _ hj)]
    unfold waitingAt
    rw [h ip List.mem_cons_self]

/-- Entering an instruction where no thread waits adds no ways. -/
theorem waiting_enter {set set' : SparseSet} {table : Slots} (h : set.insert ip = (true, set'))
    (hw : p.instrs[ip]?.any Instr.waits = false) :
    p.waiting ⟨set', table, width⟩ cur = p.waiting ⟨set, table, width⟩ cur := by
  unfold waiting
  dsimp only
  rw [(SparseSet.insert_eq_true h).1, List.flatMap_append, List.flatMap_singleton]
  have hnone : p.waitingAt ⟨set', table, width⟩ cur ip = [] := by
    unfold waitingAt
    rw [hw]
    rfl
  rw [hnone, List.append_nil]
  exact waiting_congr fun _ _ => rfl

/-- A thread that waits adds its ways behind all others. -/
theorem waiting_store {set set' : SparseSet} {table : Slots} (h : set.insert ip = (true, set'))
    (hw : p.instrs[ip]?.any Instr.waits = true) {n : Nat}
    (ht : Threads.Fits ⟨set, table, width⟩ n width) (hs : slots.size = width) :
    p.waiting (Threads.store ⟨set', table, width⟩ ip slots) cur =
      p.waiting ⟨set, table, width⟩ cur ++ p.expand ⟨ip, cur⟩ slots := by
  obtain ⟨hlist, hnew, hlt⟩ := SparseSet.insert_eq_true h
  have hlt' : ip < n := ht.capacity ▸ hlt
  unfold waiting
  rw [Threads.set_store, hlist, List.flatMap_append, List.flatMap_singleton]
  congr 1
  · refine waiting_congr fun jp hj => Threads.row_store_of_ne _ slots ?_
    rintro rfl
    rw [(SparseSet.contains_iff_mem_toList set).mpr hj] at hnew
    simp at hnew
  · unfold waitingAt
    rw [hw, if_pos rfl, Threads.row_store_self (ht.insert h) hlt' hs]

/-- An instruction that has not been entered may be followed one step on. -/
theorem outcome_enter {set set' : SparseSet} {table : Slots} (h : set.insert ip = (true, set'))
    (ho : p.Outcome (Fresh (Threads.Visited ⟨set', table, width⟩ cur))
      (p.waiting ⟨set, table, width⟩ cur ++ (p.expand ⟨ip, cur⟩ slots ++ others)) outcome) :
    p.Outcome (Fresh (Threads.Visited ⟨set, table, width⟩ cur))
      (p.waiting ⟨set, table, width⟩ cur ++ .follow ⟨ip, cur⟩ slots :: others) outcome := by
  have hvisited : Threads.Visited ⟨set', table, width⟩ cur =
      fun x => Threads.Visited ⟨set, table, width⟩ cur x ∨ x = ⟨ip, cur⟩ := by
    funext x
    refine propext ?_
    unfold Threads.Visited
    dsimp only
    rw [SparseSet.contains_of_insert_true h]
    constructor
    · rintro ⟨hc, hm | hm⟩
      · exact Or.inl ⟨hc, hm⟩
      · exact Or.inr (by rw [← hm, ← hc])
    · rintro (⟨hc, hm⟩ | rfl)
      · exact ⟨hc, Or.inl hm⟩
      · exact ⟨rfl, Or.inr rfl⟩
  -- No thread has been here, so a fresh run may still begin with this configuration.
  have hnew : ¬ Threads.Visited ⟨set, table, width⟩ cur ⟨ip, cur⟩ := by
    rintro ⟨-, hm⟩
    rw [(SparseSet.insert_eq_true h).2.1] at hm
    simp at hm
  refine ho.append (fun d s hd r hr => ?_) fun o ho => ?_
  · have hlt := rest_lt_of_mem_waiting hd
    rw [fresh_visited_iff hr hlt, fresh_visited_iff hr hlt]
  · rw [hvisited] at ho
    exact ho.of_expand_fresh hnew

/-- An instruction that has been entered leads to no fresh run, nor does one that does not exist. -/
theorem outcome_reenter {set set' : SparseSet} {table : Slots} (h : set.insert ip = (false, set'))
    (hcap : set.capacity = p.instrs.size)
    (ho : p.Outcome (Fresh (Threads.Visited ⟨set', table, width⟩ cur))
      (p.waiting ⟨set', table, width⟩ cur ++ others) outcome) :
    p.Outcome (Fresh (Threads.Visited ⟨set, table, width⟩ cur))
      (p.waiting ⟨set, table, width⟩ cur ++ .follow ⟨ip, cur⟩ slots :: others) outcome := by
  obtain ⟨rfl, hin⟩ := SparseSet.insert_eq_false h
  refine ho.append (fun _ _ _ _ _ => Iff.rfl) fun o ho => .skip (fun r hr hf => ?_) ho
  rcases hin with hin | hout
  · exact hf.2 _ hr.mem_self ⟨rfl, hin⟩
  · have := hr.ip_lt_size _ hr.mem_self
    rw [hcap] at hout
    exact absurd this (Nat.not_lt.mpr hout)

/-! ## Passing an instruction -/

theorem setIfInBounds_restore {old : Slot} {slot : Nat} (h : slots[slot]? = some old) (new : Slot) :
    (slots.setIfInBounds slot new).setIfInBounds slot old = slots := by
  refine Array.ext_getElem? ?_
  intro i
  rw [Array.getElem?_setIfInBounds, Array.getElem?_setIfInBounds, Array.size_setIfInBounds]
  by_cases hi : slot = i
  · subst hi
    have hlt := (Array.getElem?_eq_some_iff.mp h).1
    rw [if_pos rfl, if_pos hlt, h]
  · rw [if_neg hi, if_neg hi]

/-- An instruction where no thread waits may be followed one step on. -/
theorem outcome_pass {set set' : SparseSet} {table : Slots} {ways : List Pending} {i : Instr}
    (h : set.insert ip = (true, set')) (hi : p.instrs[ip]? = some i) (hw : i.waits = false)
    (hways : p.expand ⟨ip, cur⟩ slots = ways)
    (ho : p.Outcome (Fresh (Threads.Visited ⟨set', table, width⟩ cur))
      (p.waiting ⟨set', table, width⟩ cur ++ (ways ++ others)) outcome) :
    p.Outcome (Fresh (Threads.Visited ⟨set, table, width⟩ cur))
      (p.waiting ⟨set, table, width⟩ cur ++ .follow ⟨ip, cur⟩ slots :: others) outcome := by
  refine outcome_enter h ?_
  rw [hways, ← waiting_enter h (by rw [hi]; exact hw)]
  exact ho

/-- An instruction that does not exist leads nowhere. -/
theorem outcome_missing {set set' : SparseSet} {table : Slots}
    (h : set.insert ip = (true, set')) (hi : p.instrs[ip]? = none)
    (ho : p.Outcome (Fresh (Threads.Visited ⟨set', table, width⟩ cur))
      (p.waiting ⟨set', table, width⟩ cur ++ others) outcome) :
    p.Outcome (Fresh (Threads.Visited ⟨set, table, width⟩ cur))
      (p.waiting ⟨set, table, width⟩ cur ++ .follow ⟨ip, cur⟩ slots :: others) outcome := by
  have hways : p.expand ⟨ip, cur⟩ slots = [] := by
    simp [expand, IsAccept, successors, hi]
  refine outcome_enter h ?_
  rw [hways, ← waiting_enter h (by rw [hi]; rfl)]
  exact ho

/-! ## One step of the closure -/

/-- What entering an instruction comes to: the list with it, the slots, and what is to be done
next. -/
def enter (p : Program) (cur : Cursor) (t : Threads) (slots : Slots) (ip : Nat) :
    Threads × Slots × List Frame :=
  match t.set.insert ip with
  | (false, set) => ({ t with set }, slots, [])
  | (true, set) =>
    match p.instrs[ip]? with
    | some (.jump target) => ({ t with set }, slots, [.explore target])
    | some (.split primary secondary) =>
      ({ t with set }, slots, [.explore primary, .explore secondary])
    | some (.save slot) =>
      match slots[slot]? with
      | some old =>
        ({ t with set }, slots.setIfInBounds slot (some cur.offset),
          [.explore (ip + 1), .restore slot old])
      | none => ({ t with set }, slots, [.explore (ip + 1)])
    | some (.assertion a) =>
      ({ t with set }, slots, if a.holds cur then [.explore (ip + 1)] else [])
    | some _ => (Threads.store { t with set } ip slots, slots, [])
    | none => ({ t with set }, slots, [])

theorem close_explore (p : Program) (cur : Cursor) (t : Threads) (slots : Slots) (ip : Nat)
    (stack : List Frame) :
    p.close cur t slots (.explore ip :: stack) =
      p.close cur (p.enter cur t slots ip).1 (p.enter cur t slots ip).2.1
        ((p.enter cur t slots ip).2.2 ++ stack) := by
  obtain ⟨set, table, w⟩ := t
  rw [close]
  unfold enter
  dsimp only
  cases set.insert ip with
  | mk new set' =>
  cases new with
  | false => rfl
  | true =>
    cases p.instrs[ip]? with
    | none => rfl
    | some instr =>
      cases instr with
      | save slot =>
        dsimp only
        cases slots[slot]? <;> rfl
      | assertion a =>
        dsimp only
        by_cases ha : a.holds cur = true
        · rw [if_pos ha, if_pos ha]
          rfl
        · rw [if_neg ha, if_neg ha]
          rfl
      | _ => rfl

/-! ## The closure -/

/-- The closure keeps the room of the list and the number of slots. -/
theorem close_fits {n : Nat} (p : Program) (cur : Cursor) (t : Threads) (slots : Slots)
    (stack : List Frame) (ht : t.Fits n width) (hs : slots.size = width) :
    (p.close cur t slots stack).1.Fits n width ∧ (p.close cur t slots stack).2.size = width := by
  fun_induction close p cur t slots stack with
  | case1 => exact ⟨ht, hs⟩
  | case2 _ _ _ _ _ ih => exact ih ht (by simpa using hs)
  | case3 _ _ _ _ _ _ _ hi ih => exact ih (ht.insert hi) hs
  | case4 _ _ _ _ _ _ _ hi _ _ ih => exact ih (ht.insert hi) hs
  | case5 _ _ _ _ _ _ _ hi _ _ _ ih => exact ih (ht.insert hi) hs
  | case6 _ _ _ _ _ _ _ hi _ _ _ _ ih => exact ih (ht.insert hi) (by simpa using hs)
  | case7 _ _ _ _ _ _ _ hi _ _ _ ih => exact ih (ht.insert hi) hs
  | case8 _ _ _ _ _ _ _ hi _ _ _ ih => exact ih (ht.insert hi) hs
  | case9 _ _ _ _ _ _ _ hi _ _ _ ih => exact ih (ht.insert hi) hs
  | case10 _ _ _ _ _ _ _ hi _ _ _ _ _ _ ih => exact ih ((ht.insert hi).store _ _) hs
  | case11 _ _ _ _ _ _ _ hi _ ih => exact ih (ht.insert hi) hs

/-- **Following threads keeps the outcome of the ways they stand for.** -/
theorem outcome_close (p : Program) (cur : Cursor) (t : Threads) (slots : Slots)
    (stack : List Frame) (ht : t.Fits p.instrs.size width) (hs : slots.size = width)
    (ho : p.Outcome (Fresh ((p.close cur t slots stack).1.Visited cur))
      (p.waiting (p.close cur t slots stack).1 cur ++ others) outcome) :
    p.Outcome (Fresh (t.Visited cur))
      (p.waiting t cur ++ (Frame.ways cur slots stack ++ others)) outcome := by
  fun_induction close p cur t slots stack with
  | case1 => exact ho
  | case2 _ _ _ _ _ ih => exact ih ht (by simpa using hs) ho
  | case3 _ _ _ _ _ _ _ hi ih => exact outcome_reenter hi ht.capacity (ih (ht.insert hi) hs ho)
  | case4 _ _ _ _ _ _ _ hi _ hx ih =>
    exact outcome_pass hi hx rfl (expand_jump hx) (ih (ht.insert hi) hs ho)
  | case5 _ _ _ _ _ _ _ hi _ _ hx ih =>
    exact outcome_pass hi hx rfl (expand_split hx) (ih (ht.insert hi) hs ho)
  | case6 _ _ _ _ _ _ _ hi _ hx old hold ih =>
    -- The frame that is left on the stack restores the slot for the ways behind.
    have hrec := ih (ht.insert hi) (by simpa using hs) ho
    rw [Frame.ways, Frame.ways, setIfInBounds_restore hold] at hrec
    exact outcome_pass hi hx rfl (expand_save hx) hrec
  | case7 _ _ _ slots _ _ _ hi slot hx hnone ih =>
    -- A slot that is not tracked is not recorded in the run either.
    have hsame : slots.setIfInBounds slot (some cur.offset) = slots :=
      Array.setIfInBounds_eq_of_size_le (by rwa [Array.getElem?_eq_none_iff] at hnone)
    refine outcome_pass hi hx rfl (expand_save hx) ?_
    rw [hsame]
    exact ih (ht.insert hi) hs ho
  | case8 _ _ _ _ _ _ _ hi _ hx hholds ih =>
    exact outcome_pass hi hx rfl ((expand_assertion hx).trans (if_pos hholds))
      (ih (ht.insert hi) hs ho)
  | case9 _ _ _ _ _ _ _ hi _ hx hholds ih =>
    exact outcome_pass hi hx rfl ((expand_assertion hx).trans (if_neg hholds))
      (ih (ht.insert hi) hs ho)
  | case10 _ _ _ _ _ _ _ hi i hjump hsplit hsave hassert hx ih =>
    have hw : i.waits = true := by
      cases i <;> first | rfl | simp_all
    have hrec := ih ((ht.insert hi).store _ _) hs ho
    obtain rfl : _ = width := ht.width_eq
    refine outcome_enter hi ?_
    rw [waiting_store hi (by rw [hx]; exact hw) ht hs, List.append_assoc] at hrec
    exact hrec
  | case11 _ _ _ _ _ _ _ hi hx ih => exact outcome_missing hi hx (ih (ht.insert hi) hs ho)

end Program

end LinearRegex
