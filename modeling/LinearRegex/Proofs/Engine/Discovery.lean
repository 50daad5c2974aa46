import LinearRegex.Proofs.Engine.Termination

/-!
# What following a thread discovers

Following a thread is a depth-first walk over the instructions that are reached without taking a
character. Said as one step from the list before to the list behind, there are no frames left: an
instruction that is in the list is passed over, another one is put at its end, then all its branches
are followed with the slots it has recorded, and what comes behind it is followed with the slots as
they were. The frames that restore slots come to just that.

An instruction is discovered on the first passage to it, in the order of preference, among those
that are never twice at one instruction and keep off the instructions that were in the list before.
Had the list let pass one that is preferred, its branch would have been followed first, and its end
would have been discovered there.

Main statement: `Program.exists_appended`.
-/

namespace LinearRegex

/-- A list lets pass what is never twice in one configuration and never at one of its
instructions. -/
def Threads.LetsPass (t : Threads) (r : List Config) : Prop :=
  r.Nodup ∧ ∀ x ∈ r, x.ip ∉ t.set.toList

namespace Program

variable {p : Program} {hay : Haystack} {cur : Cursor} {t u : Threads} {slots : Slots}
variable {ip jp kp n width : Nat} {ips : List Nat} {r s : List Config}

/-! ## Definitions -/

/-- Where a thread goes on to from an instruction without taking a character, the preferred
instruction first. -/
def branches (p : Program) (cur : Cursor) (ip : Nat) : List Nat :=
  match p.instrs[ip]? with
  | some (.split primary secondary) => [primary, secondary]
  | some (.jump target) => [target]
  | some (.save _) => [ip + 1]
  | some (.assertion a) => if a.holds cur then [ip + 1] else []
  | _ => []

/-- A way from one instruction to another that takes no character, both ends included. -/
inductive Passage (p : Program) (cur : Cursor) : Nat → List Config → Nat → Prop
  | here {ip : Nat} : Passage p cur ip [⟨ip, cur⟩] ip
  | step {ip jp kp : Nat} {r : List Config} (h : jp ∈ p.branches cur ip)
    (rest : Passage p cur jp r kp) : Passage p cur ip (⟨ip, cur⟩ :: r) kp

/-- The passage on which an instruction is discovered: the first one, in the order of preference,
that the list lets pass. -/
structure Discovery (p : Program) (cur : Cursor) (t : Threads) (ip : Nat) (r : List Config)
    (jp : Nat) : Prop where
  passage : p.Passage cur ip r jp
  letsPass : t.LetsPass r
  first : ∀ s, p.Passage cur ip s jp → t.LetsPass s → s = r ∨ p.Before r s

/-- The list with one more instruction, and with the slots of the thread if it waits there. -/
def enrol (p : Program) (t : Threads) (slots : Slots) (ip : Nat) : Threads :=
  if p.instrs[ip]?.any Instr.waits then
    Threads.store { t with set := (t.set.insert ip).2 } ip slots
  else { t with set := (t.set.insert ip).2 }

/-- The frame that puts back the slot an instruction records, if it is tracked. -/
def undo (p : Program) (slots : Slots) (ip : Nat) : List Frame :=
  match p.instrs[ip]? with
  | some (.save slot) =>
    match slots[slot]? with
    | some old => [.restore slot old]
    | none => []
  | _ => []

/-- What the threads at some instructions, followed one after the other, make of a list. -/
inductive Discovers (p : Program) (cur : Cursor) :
    Threads → Slots → List Nat → Threads → Prop
  | nil {t : Threads} {slots : Slots} : Discovers p cur t slots [] t
  | skip {t u : Threads} {slots : Slots} {ip : Nat} {ips : List Nat} (h : ip ∈ t.set.toList)
    (rest : Discovers p cur t slots ips u) : Discovers p cur t slots (ip :: ips) u
  | enter {t u v : Threads} {slots : Slots} {ip : Nat} {ips : List Nat}
    (hlt : ip < t.set.capacity) (hnew : ip ∉ t.set.toList)
    (below : Discovers p cur (p.enrol t slots ip) (p.recordAt ⟨ip, cur⟩ slots)
      (p.branches cur ip) v)
    (rest : Discovers p cur v slots ips u) : Discovers p cur t slots (ip :: ips) u

/-! ## Branches -/

/-- The branches are the successors at the same place of the text. -/
theorem mem_branches_iff (p : Program) (cur : Cursor) (ip jp : Nat) :
    jp ∈ p.branches cur ip ↔ ⟨jp, cur⟩ ∈ p.successors ⟨ip, cur⟩ := by
  have hwaits : ∀ i : Instr, p.instrs[ip]? = some i → i.waits = true →
      (⟨jp, cur⟩ : Config) ∉ p.successors ⟨ip, cur⟩ := by
    intro i hi hw hmem
    rw [successors_of_waits (c := ⟨ip, cur⟩) hi hw] at hmem
    split at hmem
    · next ha =>
      -- Behind a character less is left of the text.
      obtain ⟨ch, hch, -⟩ := (Option.any_eq_true _ _).mp ha
      have hlt := Cursor.rest_next_lt hch
      rw [← (Config.mk.inj (List.mem_singleton.mp hmem)).2] at hlt
      exact Nat.lt_irrefl _ hlt
    · simp at hmem
  cases hi : p.instrs[ip]? with
  | none => simp [branches, successors, hi]
  | some i =>
    cases i with
    | split primary secondary => simp [branches, successors, hi]
    | jump target => simp [branches, successors, hi]
    | save slot => simp [branches, successors, hi]
    | assertion a =>
      by_cases ha : a.holds cur = true
      · simp [branches, successors, hi, ha]
      · simp [branches, successors, hi, ha]
    | _ =>
      have hnot := hwaits _ hi rfl
      simp [branches, hi, hnot]

/-- The branches of an instruction of a closed program are instructions of it. -/
theorem Closed.branches_lt (hp : p.Closed) (h : jp ∈ p.branches cur ip) : jp < p.instrs.size := by
  unfold branches at h
  split at h
  · next hi => exact hp.targets ip _ hi jp (by simpa [Instr.targets] using h)
  · next hi => exact hp.targets ip _ hi jp (by simpa [Instr.targets] using h)
  · next hi => exact hp.targets ip _ hi jp (by simpa [Instr.targets] using h)
  · next hi =>
    split at h
    · exact hp.targets ip _ hi jp (by simpa [Instr.targets] using h)
    · simp at h
  · simp at h

/-- Only a split has a branch behind another one. -/
theorem split_of_branches {before after : List Nat}
    (h : p.branches cur ip = before ++ jp :: after) (hk : kp ∈ after) :
    p.instrs[ip]? = some (.split jp kp) := by
  have several : ∀ pre : List Nat, 1 < (pre ++ jp :: after).length := by
    intro pre
    have := List.length_pos_of_mem hk
    simp only [List.length_append, List.length_cons]
    omega
  have single : ∀ {x : Nat} (pre : List Nat), [x] ≠ pre ++ jp :: after := fun pre heq =>
    absurd (several pre) (by rw [← heq]; simp)
  unfold branches at h
  split at h
  · next primary secondary hi =>
    cases before with
    | nil =>
      obtain ⟨rfl, rfl⟩ := List.cons.inj h
      rw [hi, List.mem_singleton.mp hk]
    | cons x before => exact absurd (List.cons.inj h).2 (single before)
  · exact absurd h (single before)
  · exact absurd h (single before)
  · split at h
    · exact absurd h (single before)
    · exact absurd h (by simp)
  · exact absurd h (by simp)

/-! ## Passages -/

namespace Passage

theorem exists_cons (h : p.Passage cur ip r jp) : ∃ r', r = ⟨ip, cur⟩ :: r' := by
  cases h with
  | here => exact ⟨[], rfl⟩
  | step _ _ => exact ⟨_, rfl⟩

theorem start_mem (h : p.Passage cur ip r jp) : ⟨ip, cur⟩ ∈ r := by
  obtain ⟨r', rfl⟩ := h.exists_cons
  exact List.mem_cons_self

theorem end_mem (h : p.Passage cur ip r jp) : ⟨jp, cur⟩ ∈ r := by
  induction h with
  | here => exact List.mem_singleton_self _
  | step _ _ ih => exact List.mem_cons_of_mem _ ih

/-- A passage stays at one place of the text. -/
theorem cur_eq (h : p.Passage cur ip r jp) : ∀ x ∈ r, x.cur = cur := by
  induction h with
  | here => exact fun x hx => by rw [List.mem_singleton.mp hx]
  | step _ _ ih => exact List.forall_mem_cons.mpr ⟨rfl, ih⟩

/-- A passage without detours from an instruction to itself stays there. -/
theorem eq_singleton (h : p.Passage cur ip r ip) (hn : r.Nodup) : r = [⟨ip, cur⟩] := by
  cases h with
  | here => rfl
  | step _ rest => exact absurd rest.end_mem (List.nodup_cons.mp hn).1

end Passage

/-! ## Enrolling an instruction -/

theorem fits_enrol (p : Program) (slots : Slots) (ip : Nat) (ht : t.Fits n width) :
    (p.enrol t slots ip).Fits n width := by
  obtain ⟨set, table, w⟩ := t
  have hset : Threads.Fits ⟨(set.insert ip).2, table, w⟩ n width := ht.insert rfl
  unfold enrol
  split
  · exact hset.store ip slots
  · exact hset

theorem set_enrol (p : Program) (t : Threads) (slots : Slots) (ip : Nat) :
    (p.enrol t slots ip).set = (t.set.insert ip).2 := by
  unfold enrol
  split <;> rfl

theorem toList_enrol (p : Program) (slots : Slots) (hlt : ip < t.set.capacity)
    (hnew : ip ∉ t.set.toList) :
    (p.enrol t slots ip).set.toList = t.set.toList ++ [ip] := by
  rw [set_enrol]
  exact (SparseSet.insert_eq_true (SparseSet.insert_of_not_mem hlt hnew)).1

theorem mem_enrol_iff (p : Program) (slots : Slots) (hlt : ip < t.set.capacity)
    (hnew : ip ∉ t.set.toList) :
    jp ∈ (p.enrol t slots ip).set.toList ↔ jp ∈ t.set.toList ∨ jp = ip := by
  rw [toList_enrol p slots hlt hnew, List.mem_append, List.mem_singleton]

/-- Only where the thread waits are its slots recorded. -/
theorem row_enrol (p : Program) (t : Threads) (slots : Slots)
    (h : jp = ip → p.instrs[ip]?.any Instr.waits = false) :
    (p.enrol t slots ip).row jp = t.row jp := by
  unfold enrol
  split
  · next hw =>
    have hne : jp ≠ ip := fun heq => absurd (h heq) (by simp [hw])
    exact Threads.row_store_of_ne _ slots hne
  · rfl

theorem row_enrol_self (ht : t.Fits n width) (hip : ip < n) (hs : slots.size = width)
    (hw : p.instrs[ip]?.any Instr.waits = true) : (p.enrol t slots ip).row ip = slots := by
  obtain ⟨set, table, w⟩ := t
  unfold enrol
  rw [if_pos hw]
  exact Threads.row_store_self (ht.insert rfl) hip hs

/-- A slot that is not tracked is not recorded. -/
theorem recordAt_untracked {slot : Nat} (hi : p.instrs[ip]? = some (.save slot))
    (h : slots[slot]? = none) : p.recordAt ⟨ip, cur⟩ slots = slots := by
  rw [recordAt_save hi]
  exact Array.setIfInBounds_eq_of_size_le (by rwa [Array.getElem?_eq_none_iff] at h)

/-- Entering a new instruction enrols it, records its slot, and leaves its branches to be followed
and then the slot to be put back. -/
theorem enter_eq (p : Program) (cur : Cursor) (slots : Slots) (hlt : ip < t.set.capacity)
    (hnew : ip ∉ t.set.toList) :
    p.enter cur t slots ip = (p.enrol t slots ip, p.recordAt ⟨ip, cur⟩ slots,
      (p.branches cur ip).map .explore ++ p.undo slots ip) := by
  unfold enter
  rw [SparseSet.insert_of_not_mem hlt hnew]
  cases hi : p.instrs[ip]? with
  | none => simp [enrol, recordAt, branches, undo, hi]
  | some i =>
    cases i with
    | save slot =>
      cases hold : slots[slot]? with
      | some old => simp [enrol, recordAt, branches, undo, hi, hold, Instr.waits]
      | none => simp [enrol, branches, undo, hi, hold, recordAt_untracked hi hold, Instr.waits]
    | assertion a =>
      by_cases ha : a.holds cur = true
      · simp [enrol, recordAt, branches, undo, hi, ha, Instr.waits]
      · simp [enrol, recordAt, branches, undo, hi, ha, Instr.waits]
    | _ => simp [enrol, recordAt, branches, undo, hi, Instr.waits]

/-- The slots are put back as they were. -/
theorem close_undo (p : Program) (cur : Cursor) (slots : Slots) (ip : Nat) (u : Threads)
    (stack : List Frame) :
    p.close cur u (p.recordAt ⟨ip, cur⟩ slots) (p.undo slots ip ++ stack) =
      p.close cur u slots stack := by
  cases hi : p.instrs[ip]? with
  | none => simp [recordAt, undo, hi]
  | some i =>
    cases i with
    | save slot =>
      cases hold : slots[slot]? with
      | some old =>
        simp only [recordAt, undo, hi, hold, List.singleton_append]
        rw [close, setIfInBounds_restore hold]
      | none => simp [undo, hi, hold, recordAt_untracked hi hold]
    | _ => simp [recordAt, undo, hi]

/-! ## What a walk does -/

namespace Discovers

theorem fits (h : p.Discovers cur t slots ips u) (ht : t.Fits n width) : u.Fits n width := by
  induction h with
  | nil => exact ht
  | skip _ _ ih => exact ih ht
  | enter _ _ _ _ ihBelow ihRest => exact ihRest (ihBelow (fits_enrol p _ _ ht))

/-- **The frames on the stack come to the same as the walk**, and the slots are put back. -/
theorem close_eq (h : p.Discovers cur t slots ips u) (stack : List Frame) :
    p.close cur t slots (ips.map .explore ++ stack) = p.close cur u slots stack := by
  induction h generalizing stack with
  | nil => rfl
  | @skip t u slots ip ips hin _ ih =>
    have hsame : p.enter cur t slots ip = (t, slots, []) := by
      unfold Program.enter
      rw [SparseSet.insert_of_mem hin]
    rw [List.map_cons, List.cons_append, close_explore, hsame]
    exact ih stack
  | @enter t u v slots ip ips hlt hnew _ _ ihBelow ihRest =>
    calc p.close cur t slots ((ip :: ips).map .explore ++ stack)
      _ = p.close cur (p.enrol t slots ip) (p.recordAt ⟨ip, cur⟩ slots)
          ((p.branches cur ip).map .explore ++
            (p.undo slots ip ++ (ips.map .explore ++ stack))) := by
        rw [List.map_cons, List.cons_append, close_explore, enter_eq p cur slots hlt hnew,
          List.append_assoc]
      _ = p.close cur v (p.recordAt ⟨ip, cur⟩ slots)
          (p.undo slots ip ++ (ips.map .explore ++ stack)) := ihBelow _
      _ = p.close cur v slots (ips.map .explore ++ stack) := close_undo p cur slots ip v _
      _ = p.close cur u slots stack := ihRest stack

/-- New instructions come behind those that are in the list. -/
theorem exists_toList (h : p.Discovers cur t slots ips u) :
    ∃ new, u.set.toList = t.set.toList ++ new := by
  induction h with
  | nil => exact ⟨[], (List.append_nil _).symm⟩
  | skip _ _ ih => exact ih
  | @enter t u v slots ip ips hlt hnew _ _ ihBelow ihRest =>
    obtain ⟨below, hbelow⟩ := ihBelow
    obtain ⟨rest, hrest⟩ := ihRest
    refine ⟨ip :: below ++ rest, ?_⟩
    rw [hrest, hbelow, toList_enrol p slots hlt hnew]
    simp only [List.append_assoc, List.cons_append, List.nil_append]

theorem subset (h : p.Discovers cur t slots ips u) : t.set.toList ⊆ u.set.toList := by
  obtain ⟨new, hnew⟩ := h.exists_toList
  rw [hnew]
  exact List.subset_append_left _ _

/-- Every instruction that is followed is in the list then. -/
theorem mem_of_start (h : p.Discovers cur t slots ips u) : ips ⊆ u.set.toList := by
  induction h with
  | nil => exact List.nil_subset _
  | skip hin rest ih => exact List.cons_subset.mpr ⟨rest.subset hin, ih⟩
  | @enter t u v slots ip ips hlt hnew below rest _ ihRest =>
    have hself := (mem_enrol_iff p slots hlt hnew).mpr (Or.inr rfl)
    exact List.cons_subset.mpr ⟨rest.subset (below.subset hself), ihRest⟩

/-- All branches of a new instruction have been followed. -/
theorem mem_of_branch (h : p.Discovers cur t slots ips u) (hjp : jp ∈ u.set.toList)
    (hnot : jp ∉ t.set.toList) (hk : kp ∈ p.branches cur jp) : kp ∈ u.set.toList := by
  induction h with
  | nil => exact absurd hjp hnot
  | skip _ _ ih => exact ih hjp hnot
  | @enter t u v slots ip ips hlt hnew below rest ihBelow ihRest =>
    by_cases hv : jp ∈ v.set.toList
    · refine rest.subset ?_
      by_cases heq : jp = ip
      · subst heq
        exact below.mem_of_start hk
      · refine ihBelow hv fun hin => ?_
        exact ((mem_enrol_iff p slots hlt hnew).mp hin).elim hnot heq
    · exact ihRest hjp hv

/-- A passage that keeps off the list before and meets the list behind ends in it. -/
theorem mem_of_passage (h : p.Discovers cur t slots ips u) (hr : p.Passage cur jp r kp)
    (hoff : ∀ x ∈ r, x.ip ∉ t.set.toList) (hmeet : ∃ x ∈ r, x.ip ∈ u.set.toList) :
    kp ∈ u.set.toList := by
  induction hr with
  | here =>
    obtain ⟨x, hx, hmem⟩ := hmeet
    rwa [List.mem_singleton.mp hx] at hmem
  | @step ip jp kp r hbranch rest ih =>
    obtain ⟨hip, hoff⟩ := List.forall_mem_cons.mp hoff
    obtain ⟨x, hx, hmem⟩ := hmeet
    refine ih hoff ?_
    rcases List.mem_cons.mp hx with rfl | hx
    · exact ⟨⟨jp, cur⟩, rest.start_mem, h.mem_of_branch hmem hip hbranch⟩
    · exact ⟨x, hx, hmem⟩

/-- What passes to an instruction that is not in the list behind, both lists let pass or none. -/
theorem letsPass_iff (h : p.Discovers cur t slots ips u) (hr : p.Passage cur jp r kp)
    (hkp : kp ∉ u.set.toList) : u.LetsPass r ↔ t.LetsPass r := by
  constructor
  · rintro ⟨hn, hoff⟩
    exact ⟨hn, fun x hx hmem => hoff x hx (h.subset hmem)⟩
  · rintro ⟨hn, hoff⟩
    exact ⟨hn, fun x hx hmem => hkp (h.mem_of_passage hr hoff ⟨x, hx, hmem⟩)⟩

/-- Rows change only where a thread waits at a new instruction. -/
theorem row_eq (h : p.Discovers cur t slots ips u)
    (hjp : jp ∈ u.set.toList → jp ∉ t.set.toList → p.instrs[jp]?.any Instr.waits = false) :
    u.row jp = t.row jp := by
  induction h with
  | nil => rfl
  | skip _ _ ih => exact ih hjp
  | @enter t u v slots ip ips hlt hnew below rest ihBelow ihRest =>
    have hgrown : ∀ {x}, x ∈ t.set.toList ∨ x = ip → x ∈ (p.enrol t slots ip).set.toList :=
      (mem_enrol_iff p slots hlt hnew).mpr
    calc u.row jp
      _ = v.row jp := ihRest fun hu hv => hjp hu fun ht => hv (below.subset (hgrown (Or.inl ht)))
      _ = (p.enrol t slots ip).row jp := ihBelow fun hv hin =>
        hjp (rest.subset hv) fun ht => hin (hgrown (Or.inl ht))
      _ = t.row jp := row_enrol p t slots fun heq => by
        subst heq
        exact hjp (rest.subset (below.subset (hgrown (Or.inr rfl)))) hnew

end Discovers

/-! ## Discoveries -/

/-- With one more instruction in it, a list lets pass what could follow the instruction before. -/
theorem letsPass_cons_iff (p : Program) (slots : Slots) (hlt : ip < t.set.capacity)
    (hnew : ip ∉ t.set.toList) (hr : p.Passage cur jp r kp) :
    t.LetsPass (⟨ip, cur⟩ :: r) ↔ (p.enrol t slots ip).LetsPass r := by
  have hmem : ∀ x ∈ r, x.ip = ip → x = ⟨ip, cur⟩ := by
    intro x hx heq
    rw [← heq, ← hr.cur_eq x hx]
  unfold Threads.LetsPass
  simp only [List.nodup_cons, List.forall_mem_cons, mem_enrol_iff p slots hlt hnew, not_or]
  constructor
  · rintro ⟨⟨hnot, hn⟩, -, hoff⟩
    exact ⟨hn, fun x hx => ⟨hoff x hx, fun heq => hnot (hmem x hx heq ▸ hx)⟩⟩
  · rintro ⟨hn, hoff⟩
    exact ⟨⟨fun hin => (hoff _ hin).2 rfl, hn⟩, hnew, fun x hx => (hoff x hx).1⟩

/-- The discovery of an instruction by itself. -/
theorem discovery_self (p : Program) (cur : Cursor) (hnew : ip ∉ t.set.toList) :
    p.Discovery cur t ip [⟨ip, cur⟩] ip where
  passage := .here
  letsPass := ⟨List.nodup_singleton _, fun x hx => by rwa [List.mem_singleton.mp hx]⟩
  first := fun _ hs hpass => Or.inl (hs.eq_singleton hpass.1)

/-- What is discovered from a branch is discovered from the instruction, if nothing leads there from
a branch before. -/
theorem Discovery.cons {before after : List Nat} (hlt : ip < t.set.capacity)
    (hnew : ip ∉ t.set.toList) (hsplit : p.branches cur ip = before ++ jp :: after)
    (hbefore : ∀ x ∈ before, ∀ s, p.Passage cur x s kp → ¬ (p.enrol t slots ip).LetsPass s)
    (h : p.Discovery cur (p.enrol t slots ip) jp r kp) :
    p.Discovery cur t ip (⟨ip, cur⟩ :: r) kp where
  passage := .step (by rw [hsplit]; simp) h.passage
  letsPass := (letsPass_cons_iff p slots hlt hnew h.passage).mpr h.letsPass
  first := by
    intro s hs hpass
    cases hs with
    | here =>
      exact absurd ((mem_enrol_iff p slots hlt hnew).mpr (Or.inr rfl))
        (h.letsPass.2 _ h.passage.end_mem)
    | @step _ x _ s hx hs =>
      have hpass' := (letsPass_cons_iff p slots hlt hnew hs).mp hpass
      by_cases heq : x = jp
      · subst heq
        rcases h.first s hs hpass' with rfl | hlater
        · exact Or.inl rfl
        · exact Or.inr (.cons hlater)
      · rw [hsplit, List.mem_append, List.mem_cons] at hx
        rcases hx with hx | hx | hx
        · exact absurd hpass' (hbefore x hx s hs)
        · exact absurd hx heq
        · -- The passages part at the split.
          obtain ⟨r', rfl⟩ := h.passage.exists_cons
          obtain ⟨s', rfl⟩ := hs.exists_cons
          exact Or.inr (.split (split_of_branches hsplit hx) (Ne.symm heq))

/-- **Every new instruction is discovered** from one of those that are followed, and not from any
before it. If a thread waits there, it has recorded what was recorded on the way. -/
theorem Discovers.exists_discovery (h : p.Discovers cur t slots ips u) (ht : t.Fits n width)
    (hs : slots.size = width) (hjp : jp ∈ u.set.toList) (hnot : jp ∉ t.set.toList) :
    ∃ before ip after r, ips = before ++ ip :: after ∧
      (∀ x ∈ before, ∀ s, p.Passage cur x s jp → ¬ t.LetsPass s) ∧ p.Discovery cur t ip r jp ∧
      (p.instrs[jp]?.any Instr.waits = true → u.row jp = p.recorded r slots) := by
  induction h with
  | nil => exact absurd hjp hnot
  | @skip t u slots ip ips hin rest ih =>
    obtain ⟨before, x, after, r, rfl, hbefore, hr, hrow⟩ := ih ht hs hjp hnot
    refine ⟨ip :: before, x, after, r, rfl, List.forall_mem_cons.mpr ⟨?_, hbefore⟩, hr, hrow⟩
    exact fun s hs hpass => hpass.2 _ hs.start_mem hin
  | @enter t u v slots ip ips hlt hnew below rest ihBelow ihRest =>
    have hfits := fits_enrol p slots ip ht
    have henrol : ∀ {x}, x ∈ (p.enrol t slots ip).set.toList ↔ x ∈ t.set.toList ∨ x = ip :=
      mem_enrol_iff p slots hlt hnew
    by_cases hv : jp ∈ v.set.toList
    · have hkept : u.row jp = v.row jp := rest.row_eq fun _ hnv => absurd hv hnv
      by_cases heq : jp = ip
      · subst heq
        have hself := henrol.mpr (Or.inr rfl)
        refine ⟨[], jp, ips, _, rfl, by simp, discovery_self p cur hnew, fun hw => ?_⟩
        obtain ⟨i, hi, hwi⟩ := (Option.any_eq_true _ _).mp hw
        calc u.row jp
          _ = v.row jp := hkept
          _ = (p.enrol t slots jp).row jp := below.row_eq fun _ hns => absurd hself hns
          _ = slots := row_enrol_self ht (ht.capacity ▸ hlt) hs hw
          _ = p.recorded [⟨jp, cur⟩] slots := (recordAt_of_waits hi hwi).symm
      · have hnot' : jp ∉ (p.enrol t slots ip).set.toList :=
          fun hin => (henrol.mp hin).elim hnot heq
        obtain ⟨before, x, after, r, hsplit, hbefore, hr, hrow⟩ :=
          ihBelow hfits (by simpa using hs) hv hnot'
        refine ⟨[], ip, ips, _, rfl, by simp, hr.cons hlt hnew hsplit hbefore, fun hw => ?_⟩
        rw [hkept, hrow hw, recorded_cons]
    · obtain ⟨before, x, after, r, rfl, hbefore, hr, hrow⟩ :=
        ihRest (below.fits hfits) hs hjp hv
      -- What leads to an instruction that is still not in the list keeps off all that is new in it.
      have hwalk : p.Discovers cur t slots [ip] v := .enter hlt hnew below .nil
      have hsame : ∀ {x s}, p.Passage cur x s jp → (v.LetsPass s ↔ t.LetsPass s) :=
        fun hs => hwalk.letsPass_iff hs hv
      refine ⟨ip :: before, x, after, r, rfl, ?_, ?_, hrow⟩
      · refine List.forall_mem_cons.mpr ⟨fun s hs hpass => ?_, fun x hx s hs hpass => ?_⟩
        · exact hv (hwalk.mem_of_passage hs hpass.2
            ⟨_, hs.start_mem, hwalk.mem_of_start (List.mem_singleton_self ip)⟩)
        · exact hbefore x hx s hs ((hsame hs).mpr hpass)
      · exact ⟨hr.passage, (hsame hr.passage).mp hr.letsPass,
          fun s hs hpass => hr.first s hs ((hsame hs).mpr hpass)⟩

/-- **Every walk comes to an end**: with each instruction that is entered, fewer are left. -/
theorem exists_discovers (hp : p.Closed) (cur : Cursor) (slots : Slots)
    (ht : t.Fits p.instrs.size width) (hips : ∀ ip ∈ ips, ip < p.instrs.size) :
    ∃ u, p.Discovers cur t slots ips u := by
  obtain ⟨m, hm⟩ : ∃ m, p.instrs.size - t.set.toList.length = m := ⟨_, rfl⟩
  induction m using Nat.strongRecOn generalizing t slots ips with
  | ind m ih =>
    induction ips with
    | nil => exact ⟨t, .nil⟩
    | cons ip ips ihIps =>
      obtain ⟨hip, hips⟩ := List.forall_mem_cons.mp hips
      by_cases hin : ip ∈ t.set.toList
      · obtain ⟨u, hu⟩ := ihIps hips
        exact ⟨u, .skip hin hu⟩
      · have hlt : ip < t.set.capacity := ht.capacity ▸ hip
        have hfits := fits_enrol p slots ip ht
        have hroom := (p.enrol t slots ip).set.length_toList_le
        have hgrown : (p.enrol t slots ip).set.toList.length = t.set.toList.length + 1 := by
          rw [toList_enrol p slots hlt hin, List.length_append, List.length_singleton]
        rw [hfits.capacity] at hroom
        obtain ⟨v, hv⟩ := ih _ (by omega) (p.recordAt ⟨ip, cur⟩ slots) hfits
          (fun jp hjp => hp.branches_lt hjp) rfl
        obtain ⟨new, hnew⟩ := hv.exists_toList
        have hlonger : v.set.toList.length =
            (p.enrol t slots ip).set.toList.length + new.length := by
          rw [hnew, List.length_append]
        obtain ⟨u, hu⟩ := ih _ (by omega) slots (hv.fits hfits) hips rfl
        exact ⟨u, .enter hlt hin hv hu⟩

/-! ## Following one thread -/

/-- **Following a thread only appends to the list and puts the slots back.** Let a program end in an
accepting instruction, and let the list be sized for it, whatever it holds. Following the thread at
an instruction of the program empties the stack, with the slots as they were. The instructions that
were in the list keep their places and their rows. Behind them come just those that are reached from
the instruction, taking no character, over instructions that were not in the list; and where a
thread waits at one of these, its row holds the slots with what is recorded on the passage on which
it is discovered. -/
theorem exists_appended (hp : p.EndsInAccept) (hcur : cur ∈ hay.cursors)
    (ht : t.Fits p.instrs.size width) (hs : slots.size = width) (hip : ip < p.instrs.size) :
    ∃ u new, p.close cur t slots [.explore ip] = (u, slots) ∧
      (∃ n, repeat? (Machine.follow p hay cur.offset) n ⟨t, slots, [.explore ip]⟩ =
        some ⟨u, slots, []⟩) ∧
      u.set.toList = t.set.toList ++ new ∧
      (∀ jp ∈ t.set.toList, u.row jp = t.row jp) ∧
      (∀ jp, jp ∈ new ↔ ∃ r, p.Passage cur ip r jp ∧ ∀ x ∈ r, x.ip ∉ t.set.toList) ∧
      ∀ jp ∈ new, p.instrs[jp]?.any Instr.waits = true →
        ∃ r, p.Discovery cur t ip r jp ∧ u.row jp = p.recorded r slots := by
  obtain ⟨u, hu⟩ := exists_discovers hp.closed cur slots ht (List.forall_mem_singleton.mpr hip)
  obtain ⟨new, hnew⟩ := hu.exists_toList
  have hclose : p.close cur t slots [.explore ip] = (u, slots) := by
    rw [← List.append_nil [Frame.explore ip]]
    exact (hu.close_eq []).trans (by rw [close])
  -- No instruction is twice in the list.
  have hdisjoint : ∀ jp ∈ new, jp ∉ t.set.toList := by
    intro jp hjp hmem
    have hnodup := u.set.nodup_toList
    rw [hnew, List.nodup_append] at hnodup
    exact hnodup.2.2 jp hmem jp hjp rfl
  have hdiscovered : ∀ jp ∈ new, ∃ r, p.Discovery cur t ip r jp ∧
      (p.instrs[jp]?.any Instr.waits = true → u.row jp = p.recorded r slots) := by
    intro jp hjp
    obtain ⟨before, x, after, r, hsplit, -, hr, hrow⟩ := hu.exists_discovery ht hs
      (by rw [hnew]; exact List.mem_append_right _ hjp) (hdisjoint jp hjp)
    obtain ⟨-, rfl, -⟩ : before = [] ∧ x = ip ∧ after = [] := by
      simpa [List.singleton_eq_append_iff] using hsplit
    exact ⟨r, hr, hrow⟩
  refine ⟨u, new, hclose, ?_, hnew, fun jp hjp => hu.row_eq fun _ hnot => absurd hjp hnot,
    fun jp => ⟨fun hjp => ?_, ?_⟩, fun jp hjp hw => ?_⟩
  · obtain ⟨n, -, hrun⟩ := Machine.exists_followed hp.closed hcur
      (f := ⟨t, slots, [.explore ip]⟩) ⟨ht, hs, List.forall_mem_singleton.mpr hip⟩
    refine ⟨n, hrun.trans ?_⟩
    unfold Machine.Following.outcome
    rw [hclose]
  · obtain ⟨r, hr, -⟩ := hdiscovered jp hjp
    exact ⟨r, hr.passage, hr.letsPass.2⟩
  · rintro ⟨r, hr, hoff⟩
    have hmem : jp ∈ u.set.toList := hu.mem_of_passage hr hoff
      ⟨_, hr.start_mem, hu.mem_of_start (List.mem_singleton_self ip)⟩
    rw [hnew, List.mem_append] at hmem
    exact hmem.resolve_left (hoff _ hr.end_mem)
  · obtain ⟨r, hr, hrow⟩ := hdiscovered jp hjp
    exact ⟨r, hr, hrow hw⟩

/-- A cycle, a slot recorded in front of an assertion that fails, and a list that is not empty. -/
theorem exists_appended_cycle :
    ∃ (p : Program) (t : Threads) (cur : Cursor), cur ∈ (Haystack.ofString "ab").cursors ∧
      p.instrs = #[.save 0, .split 2 4, .save 1, .assertion .textEnd, .split 1 6, .any, .jump 7,
        .split 5 8, .any, .accept] ∧
      p.EndsInAccept ∧ t.Fits p.instrs.size 2 ∧ t.set.toList = [5] ∧
      ∃ u, p.close cur t #[none, some 0] [.explore 0] = (u, #[none, some 0]) ∧
        u.set.toList = [5] ++ [0, 1, 2, 3, 4, 6, 7, 8] ∧ u.row 5 = t.row 5 ∧
        u.row 8 = #[some 1, some 0] ∧
        ∃ r, p.Discovery cur t 0 r 8 ∧ u.row 8 = p.recorded r #[none, some 0] := by
  let p : Program :=
    { instrs := #[.save 0, .split 2 4, .save 1, .assertion .textEnd, .split 1 6, .any, .jump 7,
        .split 5 8, .any, .accept]
      brackets := #[], prefilter := .anywhere, groupNames := #[none], flags := {} }
  let t := p.enrol (({} : Threads).prepare 10 2) #[some 7, some 7] 5
  let cur := (Haystack.ofString "ab").start.next
  have hcur := Haystack.next_mem_cursors (Haystack.start_mem_cursors (.ofString "ab"))
  have hp : p.EndsInAccept := by
    refine ⟨fun ip primary secondary h => ?_, fun ip target h => ?_, rfl⟩
    · have := Array.mem_of_getElem? h
      simp [p] at this ⊢
      omega
    · have := Array.mem_of_getElem? h
      simp [p] at this ⊢
      omega
  have ht : t.Fits p.instrs.size 2 := fits_enrol p _ 5 (Threads.fits_prepare {} 10 2)
  have hlist : t.set.toList = [5] := by decide +kernel
  have hslots : (#[none, some 0] : Slots).size = 2 := rfl
  have hip : 0 < p.instrs.size := by decide
  obtain ⟨u, new, hclose, -, hnew, hrows, -, hrecorded⟩ :=
    exists_appended hp hcur ht hslots hip
  have hall : (p.close cur t #[none, some 0] [.explore 0]).1.set.toList =
      [5] ++ [0, 1, 2, 3, 4, 6, 7, 8] := by decide +kernel
  have hrow : (p.close cur t #[none, some 0] [.explore 0]).1.row 8 = #[some 1, some 0] := by
    decide +kernel
  rw [hclose] at hall hrow
  have hmem : 8 ∈ new := by
    rw [hnew, hlist] at hall
    rw [List.append_cancel_left hall]
    decide
  exact ⟨p, t, cur, hcur, rfl, hp, ht, hlist, u, hclose, hall, hrows 5 (by rw [hlist]; decide),
    hrow, hrecorded 8 hmem rfl⟩

end Program

end LinearRegex
