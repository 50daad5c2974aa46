import LinearRegex.Proofs.Engine.Search
import LinearRegex.Regex.Basic

/-!
# Caches that have been used

A cache keeps what earlier searches have left in it: entries of sets that no longer count, rows of
slots that were laid out for other programs, the slots of some thread that was followed last. A
search looks at none of that. It asks a set only for members that it has entered itself, and reads
only the rows of threads that wait, which it has written itself.

Two caches are alike for a program if they agree in what may be looked at. All parts of a search
keep caches alike, and a cache is like any other once it is prepared.

Main statements: `Program.search_congr`, and `Regex.search_after_uses` for caches with a history.
-/

namespace LinearRegex

/-! ## Sets and lists of threads -/

namespace SparseSet

/-- What an insertion does is told by the members and the capacity. -/
theorem insert_congr {s t : SparseSet} (hcapacity : s.capacity = t.capacity)
    (hmembers : s.toList = t.toList) (v : Nat) :
    (s.insert v).1 = (t.insert v).1 ∧ (s.insert v).2.toList = (t.insert v).2.toList := by
  have hcontains : s.contains v = t.contains v := by
    rw [Bool.eq_iff_iff, contains_iff_mem_toList, contains_iff_mem_toList, hmembers]
  cases hs : s.insert v with
  | mk new s' =>
  cases ht : t.insert v with
  | mk new' t' =>
  cases new with
  | true =>
    obtain ⟨hs', hnew, hlt⟩ := insert_eq_true hs
    cases new' with
    | true =>
      constructor
      · rfl
      · rw [hs', (insert_eq_true ht).1, hmembers]
    | false =>
      rcases (insert_eq_false ht).2 with hold | hge
      · rw [← hcontains, hnew] at hold
        simp at hold
      · omega
  | false =>
    obtain ⟨rfl, hold⟩ := insert_eq_false hs
    cases new' with
    | true =>
      obtain ⟨-, hnew, hlt⟩ := insert_eq_true ht
      rcases hold with hold | hge
      · rw [hcontains, hnew] at hold
        simp at hold
      · omega
    | false =>
      constructor
      · rfl
      · rw [(insert_eq_false ht).1]
        exact hmembers

end SparseSet

/-- Two lists of threads that a search cannot tell apart: there is the same room in them, the same
instructions have been entered in the same order, and the threads that wait have the same slots. -/
structure Threads.Alike (p : Program) (width : Nat) (t u : Threads) : Prop where
  fits : t.Fits p.instrs.size width
  fits' : u.Fits p.instrs.size width
  members : t.set.toList = u.set.toList
  row : ∀ ip ∈ t.set.toList, p.instrs[ip]?.any Instr.waits = true → t.row ip = u.row ip

namespace Threads.Alike

variable {p : Program} {t u : Threads} {set set' : SparseSet} {width ip : Nat} {slots : Slots}
variable {new : Bool}

theorem isEmpty (h : t.Alike p width u) : t.set.isEmpty = u.set.isEmpty := by
  rw [Bool.eq_iff_iff, ← SparseSet.toList_eq_nil_iff, ← SparseSet.toList_eq_nil_iff, h.members]

/-- Lists without threads are alike, whatever they held before. -/
theorem clear (ht : t.Fits p.instrs.size width) (hu : u.Fits p.instrs.size width) :
    t.clear.Alike p width u.clear where
  fits := ht.clear
  fits' := hu.clear
  members := rfl
  row := by simp

theorem insert_eq (h : t.Alike p width u) (ht : t.set.insert ip = (new, set)) :
    ∃ set', u.set.insert ip = (new, set') ∧ set.toList = set'.toList := by
  have hcongr := SparseSet.insert_congr (h.fits.capacity.trans h.fits'.capacity.symm) h.members ip
  rw [ht] at hcongr
  exact ⟨(u.set.insert ip).2, Prod.ext hcongr.1.symm rfl, hcongr.2⟩

/-- An instruction where no thread waits may be entered. -/
theorem enter (h : t.Alike p width u) (ht : t.set.insert ip = (new, set))
    (hu : u.set.insert ip = (new, set')) (hmembers : set.toList = set'.toList)
    (hwaits : new = true → p.instrs[ip]?.any Instr.waits = false) :
    Threads.Alike p width { t with set } { u with set := set' } where
  fits := h.fits.insert ht
  fits' := h.fits'.insert hu
  members := hmembers
  row := by
    intro jp hjp hw
    refine h.row jp ?_ hw
    cases new with
    | false =>
      rw [(SparseSet.insert_eq_false ht).1] at hjp
      exact hjp
    | true =>
      rw [(SparseSet.insert_eq_true ht).1, List.mem_append, List.mem_singleton] at hjp
      rcases hjp with hjp | rfl
      · exact hjp
      · rw [hwaits rfl] at hw
        simp at hw

/-- A thread that waits may be added with its slots. -/
theorem store (h : t.Alike p width u) (ht : t.set.insert ip = (true, set))
    (hu : u.set.insert ip = (true, set')) (hmembers : set.toList = set'.toList)
    (hs : slots.size = width) :
    Threads.Alike p width (Threads.store { t with set } ip slots)
      (Threads.store { u with set := set' } ip slots) where
  fits := (h.fits.insert ht).store ip slots
  fits' := (h.fits'.insert hu).store ip slots
  members := hmembers
  row := by
    intro jp hjp hw
    have hlt : ip < p.instrs.size := by
      rw [← h.fits.capacity]
      exact (SparseSet.insert_eq_true ht).2.2
    by_cases heq : jp = ip
    · subst heq
      rw [row_store_self (h.fits.insert ht) hlt hs, row_store_self (h.fits'.insert hu) hlt hs]
    · rw [row_store_of_ne _ slots heq, row_store_of_ne _ slots heq]
      refine h.row jp ?_ hw
      rw [set_store, (SparseSet.insert_eq_true ht).1, List.mem_append, List.mem_singleton] at hjp
      exact hjp.resolve_right heq

end Threads.Alike

/-- Two caches that a search cannot tell apart between its rounds. -/
structure Cache.Alike (p : Program) (width : Nat) (c d : Cache) : Prop where
  ready : c.Ready p.instrs.size width
  ready' : d.Ready p.instrs.size width
  current : c.current.Alike p width d.current
  next : c.next.Alike p width d.next
  slots : c.slots = d.slots

/-- **Once they are prepared, all caches are alike.** -/
theorem Cache.alike_prepare (p : Program) (width : Nat) (c d : Cache) :
    (c.prepare p.instrs.size width).Alike p width (d.prepare p.instrs.size width) where
  ready := Program.ready_prepare c _ width
  ready' := Program.ready_prepare d _ width
  current := .clear (c.current.fits_prepare _ width) (d.current.fits_prepare _ width)
  next := .clear (c.next.fits_prepare _ width) (d.next.fits_prepare _ width)
  slots := rfl

namespace Program

variable {p : Program} {cur place : Cursor} {t u t' : Threads} {width ip : Nat}
variable {slots slots' scratch scratch₂ : Slots} {stack : List Frame}

/-! ## Following threads -/

/-- Entering an instruction keeps lists alike, and comes to the same. -/
theorem enter_congr (cur : Cursor) (h : t.Alike p width u) (hs : slots.size = width) (ip : Nat) :
    (p.enter cur t slots ip).2 = (p.enter cur u slots ip).2 ∧
      (p.enter cur t slots ip).1.Alike p width (p.enter cur u slots ip).1 := by
  cases ht : t.set.insert ip with
  | mk new set =>
  obtain ⟨set', hu, hmembers⟩ := h.insert_eq ht
  unfold enter
  rw [ht, hu]
  cases new with
  | false => exact ⟨rfl, h.enter ht hu hmembers (by simp)⟩
  | true =>
    have hpass : p.instrs[ip]?.any Instr.waits = false →
        Threads.Alike p width { t with set } { u with set := set' } :=
      fun hw => h.enter ht hu hmembers fun _ => hw
    cases hx : p.instrs[ip]? with
    | none => exact ⟨rfl, hpass (by rw [hx]; rfl)⟩
    | some i =>
      cases i with
      | jump target => exact ⟨rfl, hpass (by rw [hx]; rfl)⟩
      | split primary secondary => exact ⟨rfl, hpass (by rw [hx]; rfl)⟩
      | assertion a => exact ⟨rfl, hpass (by rw [hx]; rfl)⟩
      | save slot =>
        dsimp only
        split
        · exact ⟨rfl, hpass (by rw [hx]; rfl)⟩
        · exact ⟨rfl, hpass (by rw [hx]; rfl)⟩
      | _ => exact ⟨rfl, h.store ht hu hmembers hs⟩

/-- One step, and those after it. -/
theorem close_congr_step (frames : List Frame) (h : t.Alike p width u) (hs : slots.size = width)
    (henter : p.enter cur t slots ip = (t', slots', frames))
    (hrest : ∀ u', t'.Alike p width u' →
      (p.close cur t' slots' (frames ++ stack)).2 = (p.close cur u' slots' (frames ++ stack)).2 ∧
        (p.close cur t' slots' (frames ++ stack)).1.Alike p width
          (p.close cur u' slots' (frames ++ stack)).1) :
    (p.close cur t' slots' (frames ++ stack)).2 =
        (p.close cur u slots (.explore ip :: stack)).2 ∧
      (p.close cur t' slots' (frames ++ stack)).1.Alike p width
        (p.close cur u slots (.explore ip :: stack)).1 := by
  obtain ⟨hsame, halike⟩ := enter_congr cur h hs ip
  rw [henter] at hsame halike
  rw [close_explore, ← hsame]
  exact hrest _ halike

/-- **Following threads keeps lists alike.** -/
theorem close_congr (cur : Cursor) (h : t.Alike p width u) (hs : slots.size = width)
    (stack : List Frame) :
    (p.close cur t slots stack).2 = (p.close cur u slots stack).2 ∧
      (p.close cur t slots stack).1.Alike p width (p.close cur u slots stack).1 := by
  fun_induction close p cur t slots stack generalizing u with
  | case1 =>
    rw [close]
    exact ⟨rfl, h⟩
  | case2 _ _ _ _ _ ih =>
    rw [close]
    exact ih h (by simpa using hs)
  | case3 set table w slots ip stack set' hi ih =>
    refine close_congr_step [] h hs ?_ fun u' hu => ih hu hs
    simp only [enter, hi]
  | case4 set table w slots ip stack set' hi target hx ih =>
    refine close_congr_step [.explore target] h hs ?_ fun u' hu => ih hu hs
    simp only [enter, hi, hx]
  | case5 set table w slots ip stack set' hi primary secondary hx ih =>
    refine close_congr_step [.explore primary, .explore secondary] h hs ?_
      fun u' hu => ih hu hs
    simp only [enter, hi, hx]
  | case6 set table w slots ip stack set' hi slot hx old hold ih =>
    refine close_congr_step [.explore (ip + 1), .restore slot old] h hs ?_
      fun u' hu => ih hu (by simpa using hs)
    simp only [enter, hi, hx, hold]
  | case7 set table w slots ip stack set' hi slot hx hold ih =>
    refine close_congr_step [.explore (ip + 1)] h hs ?_ fun u' hu => ih hu hs
    simp only [enter, hi, hx, hold]
  | case8 set table w slots ip stack set' hi a hx ha ih =>
    refine close_congr_step [.explore (ip + 1)] h hs ?_ fun u' hu => ih hu hs
    simp only [enter, hi, hx, if_pos ha]
  | case9 set table w slots ip stack set' hi a hx ha ih =>
    refine close_congr_step [] h hs ?_ fun u' hu => ih hu hs
    simp only [enter, hi, hx, if_neg ha]
  | case10 set table w slots ip stack set' hi i hjump hsplit hsave hassert hx ih =>
    refine close_congr_step [] h hs ?_ fun u' hu => ih hu hs
    cases i <;> simp_all [enter]
  | case11 set table w slots ip stack set' hi hx ih =>
    refine close_congr_step [] h hs ?_ fun u' hu => ih hu hs
    simp only [enter, hi, hx]

/-! ## The parts of a round -/

section

variable {input : Input} {matched : Bool} {next next₂ current current₂ current' : Threads}
variable {next' : Threads} {scratch' scratch'' : Slots} {complete : Option Nat}

/-- Starting a thread keeps lists alike. -/
theorem startThread_congr (input : Input) (matched : Bool) (cur : Cursor)
    (h : t.Alike p width u) (hs : scratch.size = width) (hs₂ : scratch₂.size = width) :
    (p.startThread input matched cur t scratch).1.Alike p width
      (p.startThread input matched cur u scratch₂).1 := by
  unfold startThread
  split
  · exact h
  · rw [hs, hs₂]
    exact (close_congr cur h Array.size_replicate _).2

/-- Letting threads take the next character keeps lists alike, and the same thread is complete. What
the scratch slots hold before is not looked at. -/
theorem stepThreads_congr (next? : Option Char) (behind : Cursor) (h : t.Alike p width u)
    (ips : List Nat) (hips : ∀ ip ∈ ips, ip ∈ t.set.toList) (hn : next.Alike p width next₂)
    (hs : scratch.size = width) (hs₂ : scratch₂.size = width) :
    (p.stepThreads t next? behind ips next scratch).1 =
        (p.stepThreads u next? behind ips next₂ scratch₂).1 ∧
      (p.stepThreads t next? behind ips next scratch).2.1.Alike p width
        (p.stepThreads u next? behind ips next₂ scratch₂).2.1 ∧
      ∀ ip, (p.stepThreads t next? behind ips next scratch).1 = some ip → t.row ip = u.row ip := by
  fun_induction stepThreads p t next? behind ips next scratch generalizing next₂ scratch₂ with
  | case1 => exact ⟨rfl, hn, by simp⟩
  | case2 next scratch ip ips hx ih =>
    rw [stepThreads, hx]
    exact ih (fun jp hjp => hips jp (List.mem_cons_of_mem _ hjp)) hn hs hs₂
  | case3 ip ips next scratch hx =>
    rw [stepThreads, hx]
    refine ⟨rfl, hn, ?_⟩
    rintro jp ⟨⟩
    exact h.row ip (hips ip List.mem_cons_self) (by rw [hx]; rfl)
  | case4 ip ips next scratch i hne hx htakes next' scratch' hclose ih =>
    -- Both go on with the slots of the row, which are the same.
    have hrow : t.load ip scratch = u.load ip scratch₂ := by
      obtain ⟨ch, -, hch⟩ := (Option.any_eq_true _ _).mp htakes
      rw [Threads.load_eq_row (hs.trans h.fits.width_eq.symm),
        Threads.load_eq_row (hs₂.trans h.fits'.width_eq.symm)]
      exact h.row ip (hips ip List.mem_cons_self) (by rw [hx]; exact (waits_of_takes hch).1)
    have hsize : (t.load ip scratch).size = width := (Threads.size_load _ _ _).trans hs
    have hfits := close_fits p behind next (t.load ip scratch) [.explore (ip + 1)] hn.fits hsize
    obtain ⟨hsame, halike⟩ := close_congr behind hn hsize [.explore (ip + 1)]
    rw [hclose] at hsame halike hfits
    rw [stepThreads_of_takes hx hne htakes, ← hrow, ← hsame]
    exact ih (fun jp hjp => hips jp (List.mem_cons_of_mem _ hjp)) halike hfits.2 hfits.2
  | case5 ip ips next scratch i hne hx htakes ih =>
    rw [stepThreads_of_not_takes hx hne htakes]
    exact ih (fun jp hjp => hips jp (List.mem_cons_of_mem _ hjp)) hn hs hs₂

/-- A round that takes place with one cache takes place with another one that is alike: the same
thread is complete with the same slots, and the caches are alike for the next round. -/
theorem exists_round
    (h : Cache.Alike p width ⟨current, next, slots, scratch⟩ ⟨current₂, next₂, slots, scratch₂⟩)
    (hstart : p.startThread input matched place current scratch = (current', scratch'))
    (hstep : p.stepThreads current' place.after place.next current'.set.toList next scratch' =
      (complete, next', scratch'')) :
    ∃ current₂' scratch₂' next₂' scratch₂'',
      p.startThread input matched place current₂ scratch₂ = (current₂', scratch₂') ∧
      p.stepThreads current₂' place.after place.next current₂'.set.toList next₂ scratch₂' =
        (complete, next₂', scratch₂'') ∧
      slotsAfter current' slots complete = slotsAfter current₂' slots complete ∧
      Cache.Alike p width
        ⟨next', current'.clear, slotsAfter current' slots complete, scratch''⟩
        ⟨next₂', current₂'.clear, slotsAfter current₂' slots complete, scratch₂''⟩ := by
  obtain ⟨hready, hready₂, hcurrent, hnext, -⟩ := h
  have hfits := startThread_fits p input matched place hready.current hready.scratch
  have hfits₂ := startThread_fits p input matched place hready₂.current hready₂.scratch
  have hstarted := startThread_congr input matched place hcurrent hready.scratch hready₂.scratch
  cases hstart₂ : p.startThread input matched place current₂ scratch₂ with
  | mk current₂' scratch₂' =>
  rw [hstart] at hfits hstarted
  rw [hstart₂] at hfits₂ hstarted
  obtain ⟨hsame, halike, hrow⟩ := stepThreads_congr place.after place.next hstarted
    current'.set.toList (fun _ h => h) hnext hfits.2 hfits₂.2
  cases hstep₂ : p.stepThreads current₂' place.after place.next current₂'.set.toList next₂
      scratch₂' with
  | mk complete₂ rest =>
  obtain ⟨next₂', scratch₂''⟩ := rest
  rw [hstep, hstarted.members, hstep₂] at hsame halike
  obtain rfl : complete = complete₂ := hsame
  rw [hstep] at hrow
  have hslots : slotsAfter current' slots complete = slotsAfter current₂' slots complete := by
    cases complete with
    | none => rfl
    | some ip =>
      have hsize : slots.size = current'.width := hready.slots.trans hfits.1.width_eq.symm
      have hsize₂ : slots.size = current₂'.width := hready.slots.trans hfits₂.1.width_eq.symm
      rw [slotsAfter, slotsAfter, Threads.load_eq_row hsize, Threads.load_eq_row hsize₂]
      exact hrow ip rfl
  exact ⟨current₂', scratch₂', next₂', scratch₂'', rfl, hstep₂, hslots,
    (ready_round hready hstart hstep).1, (ready_round hready₂ hstart₂ hstep₂).1, halike,
    .clear hfits.1 hfits₂.1, hslots⟩

/-- **Rounds end alike with caches that are alike**, whether they come to the deadline, to a match
or to the end of the text. -/
theorem rounds_congr (p : Program) (input : Input) (width : Nat) (budget : Option Nat)
    (matched : Bool) (cur : Cursor) (c : Cache) :
    ∀ d, c.Alike p width d →
      (p.rounds input width budget matched cur c).1 =
          (p.rounds input width budget matched cur d).1 ∧
        (p.rounds input width budget matched cur c).2.slots =
          (p.rounds input width budget matched cur d).2.slots := by
  induction budget, matched, cur, c using rounds.induct p input width with
  | case1 matched cur current next slots scratch =>
    intro d h
    rw [rounds, rounds, if_pos rfl, if_pos rfl]
    exact ⟨rfl, h.slots⟩
  | case2 budget matched cur current next slots scratch hb hp =>
    rintro ⟨current₂, next₂, slots₂, scratch₂⟩ h
    have hp₂ := h.current.isEmpty ▸ hp
    rw [rounds_stop hb hp, rounds_stop hb hp₂]
    exact ⟨rfl, h.slots⟩
  | case3 budget matched cur current next slots scratch hb place hp current' scratch' hstart next'
      scratch'' ip hw hstep =>
    rintro ⟨current₂, next₂, slots₂, scratch₂⟩ h
    obtain rfl : slots = slots₂ := h.slots
    have hp₂ := h.current.isEmpty ▸ hp
    obtain ⟨current₂', scratch₂', next₂', scratch₂'', hstart₂, hstep₂, -, -⟩ :=
      exists_round h hstart hstep
    rw [rounds_untracked hb hp hstart hstep rfl hw, rounds_untracked hb hp₂ hstart₂ hstep₂ rfl hw]
    exact ⟨rfl, rfl⟩
  | case4 budget matched cur current next slots scratch hb place hp current' scratch' hstart
      complete next' scratch'' hstep hr hgo =>
    rintro ⟨current₂, next₂, slots₂, scratch₂⟩ h
    obtain rfl : slots = slots₂ := h.slots
    have hp₂ := h.current.isEmpty ▸ hp
    obtain ⟨current₂', scratch₂', next₂', scratch₂'', hstart₂, hstep₂, hslots, -⟩ :=
      exists_round h hstart hstep
    rw [rounds_textEnd hb hp hstart hstep hr hgo, rounds_textEnd hb hp₂ hstart₂ hstep₂ hr hgo]
    exact ⟨rfl, hslots⟩
  | case5 budget matched cur current next slots scratch hb place hp current' scratch' hstart
      complete next' scratch'' hstep _ _ c cs hr hgo ih =>
    rintro ⟨current₂, next₂, slots₂, scratch₂⟩ h
    obtain rfl : slots = slots₂ := h.slots
    have hp₂ := h.current.isEmpty ▸ hp
    obtain ⟨current₂', scratch₂', next₂', scratch₂'', hstart₂, hstep₂, -, halike⟩ :=
      exists_round h hstart hstep
    rw [rounds_next hb hp hstart hstep hr hgo, rounds_next hb hp₂ hstart₂ hstep₂ hr hgo]
    cases complete <;> exact ih _ halike

end

/-! ## Searches -/

/-- **No search can tell what a cache was used for.** -/
theorem search_congr (p : Program) (input : Input) (width : Nat) (c d : Cache) :
    (p.search input width c).1 = (p.search input width d).1 ∧
      (p.search input width c).2.slots = (p.search input width d).2.slots :=
  rounds_congr p input width input.budget false input.start _ _ (Cache.alike_prepare p width c d)

end Program

namespace Cache

/-- A search that a cache is used for, which need not come to its end. -/
structure Use where
  re : Regex
  input : Input
  /-- The number of slots that are recorded. -/
  width : Nat

/-- The cache as a search leaves it. -/
def use (cache : Cache) (u : Use) : Cache := (u.re.program.search u.input u.width cache).2

/-- The cache as searches leave it that use it one after the other. -/
def useAll (cache : Cache) (uses : List Use) : Cache := uses.foldl use cache

end Cache

namespace Regex

/-- A search with all settings gives the same with every cache. -/
theorem search_congr (re : Regex) (request : Request) (c d : Cache) :
    (re.search request c).map Prod.fst = (re.search request d).map Prod.fst := by
  unfold search
  cases request.hay.cursorAt request.start with
  | error e => rfl
  | ok place =>
    cases place with
    | none => rfl
    | some start =>
      obtain ⟨hverdict, hslots⟩ := re.program.search_congr
        ⟨request.hay, start, request.anchored, request.budget⟩ re.program.slotCount c d
      simp only [Except.map]
      generalize re.program.search _ _ c = r at hverdict hslots ⊢
      generalize re.program.search _ _ d = r' at hverdict hslots ⊢
      obtain ⟨verdict, c'⟩ := r
      obtain ⟨verdict', d'⟩ := r'
      obtain rfl : verdict = verdict' := hverdict
      cases verdict with
      | error e => rfl
      | ok found =>
        cases found with
        | false => rfl
        | true =>
          have hslots : c'.slots = d'.slots := hslots
          simp only [hslots]

/-- **What a cache was used for is irrelevant.** After any searches that have used it, with any
expressions, texts, places, deadlines and numbers of slots, the next search ends as it does with a
cache of its own, and leaves the same slots. -/
theorem search_after_uses (first re : Regex) (uses : List Cache.Use) :
    (∀ input width,
      (re.program.search input width (first.createCache.useAll uses)).1 =
          (re.program.search input width re.createCache).1 ∧
        (re.program.search input width (first.createCache.useAll uses)).2.slots =
          (re.program.search input width re.createCache).2.slots) ∧
    ∀ request,
      (re.search request (first.createCache.useAll uses)).map Prod.fst =
        (re.search request re.createCache).map Prod.fst := by
  constructor
  · intro input width
    exact re.program.search_congr input width _ _
  · intro request
    exact re.search_congr request _ _

end Regex

end LinearRegex
