import LinearRegex.Proofs.Engine.Machine

/-!
# Every search ends

Following a thread ends because an instruction is entered only once at a place: what can still be
entered counts more than the frames that entering it brings. A search ends because behind each round
there is less of the text left, wherever the prefilter lets it go on. None of this depends on what
the jumps of a program are like, so loops over the empty text, nested in any way, end as well.

Main statement: `Program.search_terminates`.
-/

namespace LinearRegex

namespace Program

variable {p : Program} {hay : Haystack} {cur start : Cursor} {next? : Nat → Option Nat}
variable {input : Input} {width limit : Nat} {pattern : Pattern}

/-! ## Programs -/

/-- A program that is left only where a match is complete: splits and jumps lead to instructions
that are there, and the last instruction accepts. -/
structure EndsInAccept (p : Program) : Prop where
  split : ∀ ip primary secondary : Nat, p.instrs[ip]? = some (.split primary secondary) →
    primary < p.instrs.size ∧ secondary < p.instrs.size
  jump : ∀ ip target : Nat, p.instrs[ip]? = some (.jump target) → target < p.instrs.size
  last : p.instrs.back? = some .accept

/-- The instruction behind any but the last is there. -/
theorem EndsInAccept.succ_lt (h : p.EndsInAccept) {ip : Nat} {i : Instr}
    (hi : p.instrs[ip]? = some i) (hne : i ≠ .accept) : ip + 1 < p.instrs.size := by
  have hip := (Array.getElem?_eq_some_iff.mp hi).1
  have hlast := h.last
  rw [Array.back?_eq_getElem?] at hlast
  by_cases heq : ip = p.instrs.size - 1
  · rw [← heq, hi] at hlast
    exact absurd (Option.some.inj hlast) hne
  · omega

/-- **No thread leaves a program that ends in an accepting instruction.** -/
theorem EndsInAccept.closed (h : p.EndsInAccept) : p.Closed where
  nonempty := by
    have hlast := h.last
    rw [Array.back?_eq_getElem?] at hlast
    have := (Array.getElem?_eq_some_iff.mp hlast).1
    omega
  targets ip i hi t ht := by
    cases i with
    | accept => simp [Instr.targets] at ht
    | split primary secondary =>
      obtain ⟨hprimary, hsecondary⟩ := h.split ip primary secondary hi
      obtain rfl | rfl : t = primary ∨ t = secondary := by simpa [Instr.targets] using ht
      · exact hprimary
      · exact hsecondary
    | jump target =>
      obtain rfl : t = target := by simpa [Instr.targets] using ht
      exact h.jump ip t hi
    | _ =>
      obtain rfl := List.mem_singleton.mp ht
      exact h.succ_lt hi (by simp)

/-- **A compiled program** ends in an accepting instruction. -/
theorem compile_endsInAccept (h : compile limit pattern = .ok p) : p.EndsInAccept := by
  have hclosed := (compile_inBounds h).toClosed
  obtain ⟨exit, hc, hsize⟩ := compile_layout h
  refine ⟨fun ip primary secondary hi => ?_, fun ip target hi => ?_, ?_⟩
  · exact ⟨hclosed.targets ip _ hi primary (by simp [Instr.targets]),
      hclosed.targets ip _ hi secondary (by simp [Instr.targets])⟩
  · exact hclosed.targets ip _ hi target (by simp [Instr.targets])
  · rw [Array.back?_eq_getElem?, hsize, Nat.add_sub_cancel]
    exact hc.accept

namespace Machine

/-! ## Runs -/

/-- **Following a thread ends**, with the list that the engine has then. -/
theorem exists_followed (hp : p.Closed) (hcur : cur ∈ hay.cursors) {f : Following}
    (hf : f.Sound p.instrs.size width) :
    ∃ n ≤ f.left, repeat? (follow p hay cur.offset) n f =
      some ⟨(f.outcome p cur).1, (f.outcome p cur).2, []⟩ := by
  have hstep : ∀ (f' : Following) (m : Nat),
      (f'.Sound p.instrs.size width ∧ f'.left = m ∧ f'.outcome p cur = f.outcome p cur) →
      ¬ f'.stack = [] → ∃ f'', follow p hay cur.offset f' = some f'' ∧ ∃ m' < m,
        f''.Sound p.instrs.size width ∧ f''.left = m' ∧ f''.outcome p cur = f.outcome p cur := by
    rintro f' m ⟨hf', rfl, hsame⟩ hstack
    obtain ⟨f'', hfollow, hsound, hsame', hlt⟩ := exists_follow hp hcur hf' hstack
    exact ⟨f'', hfollow, _, hlt, hsound, rfl, hsame'.trans hsame⟩
  obtain ⟨n, hn, f', hrun, hempty, -, -, -, hsame⟩ := exists_repeat? _ _ hstep ⟨hf, rfl, rfl⟩
  refine ⟨n, hn, hrun.trans ?_⟩
  obtain ⟨t, slots, stack⟩ := f'
  obtain rfl : stack = [] := hempty
  unfold Following.outcome at hsame
  rw [close] at hsame
  unfold Following.outcome
  rw [← hsame]

/-- A search begins soundly. -/
theorem sound_init (hstart : input.start ∈ input.hay.cursors) (cache : Cache) :
    (init p input width cache).Sound p input width input.start := by
  have hready := ready_prepare cache p.instrs.size width
  exact ⟨hstart, rfl, hready.current, hready.next, hready.slots, hready.scratch,
    by simp [init, Stage.frames]⟩

/-- **A search ends**, with the verdict and the cache that the engine has then. -/
theorem exists_searched (hp : p.Closed) (input : Input) (hnext : GoesOnward next? input.hay)
    (hstart : input.start ∈ input.hay.cursors) (width : Nat) (cache : Cache) :
    ∃ n ≤ (input.start.rest.length + 1) * roundSteps p, ∃ s verdict,
      repeat? (step p next? input width) n (init p input width cache) = some s ∧
        s.stage = .over verdict ∧
        ((∀ o, next? o = p.prefilter.next? input.hay.bytes o) →
          p.search input width cache = (verdict, s.cache)) := by
  -- What holds of a state of the run when so much is left to be done.
  let Holds (s : State) (m : Nat) : Prop := ∃ place, s.Sound p input width place ∧
    s.left p place = m ∧ ((∀ o, next? o = p.prefilter.next? input.hay.bytes o) →
      s.outcome p input width place = p.search input width cache)
  have hstep : ∀ s m, Holds s m → ¬ (∃ verdict, s.stage = .over verdict) →
      ∃ s', step p next? input width s = some s' ∧ ∃ m' < m, Holds s' m' := by
    rintro s m ⟨place, hs, rfl, hsame⟩ hover
    obtain ⟨s', place', hstep, hbehind⟩ :=
      exists_step hp hnext hs fun verdict h => hover ⟨verdict, h⟩
    exact ⟨s', hstep, _, hbehind.left_lt, place', hbehind.sound, rfl,
      fun hown => (hbehind.outcome hown).trans (hsame hown)⟩
  obtain ⟨n, hn, s, hrun, ⟨verdict, hover⟩, -, place, -, -, hsame⟩ := exists_repeat? Holds _ hstep
    ⟨input.start, sound_init hstart cache, rfl, fun _ => rfl⟩
  refine ⟨n, hn, s, verdict, hrun, hover, fun hown => ?_⟩
  rw [← hsame hown]
  unfold State.outcome
  rw [hover]

end Machine

/-- **Search terminates on every program**, whatever its jumps. Let splits and jumps lead to
instructions that are there, and the last instruction accept; let the prefilter be any function that
goes from a boundary to one at or after it. At every boundary, following a thread empties the stack
after finitely many steps, and from every boundary on the loop of the search comes to an end,
anchored or not, with a deadline or without, however many slots are recorded and whatever the cache
held. No step fails, and with the program's own prefilter the result is that of the search. -/
theorem search_terminates (hp : p.EndsInAccept) (hstart : start ∈ hay.cursors)
    (hnext : Machine.GoesOnward next? hay) (anchored : Bool) (budget : Option Nat) (width : Nat)
    (cache : Cache) :
    (∀ cur ∈ hay.cursors, ∀ (t : Threads) (slots : Slots) (ip : Nat),
      t.Fits p.instrs.size width → slots.size = width → ip < p.instrs.size →
      ∃ n ≤ 2 * p.instrs.size + 1,
        repeat? (Machine.follow p hay cur.offset) n ⟨t, slots, [.explore ip]⟩ =
          some ⟨(p.close cur t slots [.explore ip]).1, (p.close cur t slots [.explore ip]).2, []⟩) ∧
      ∃ n ≤ (start.rest.length + 1) * Machine.roundSteps p, ∃ s verdict,
        repeat? (Machine.step p next? { hay, start, anchored, budget } width) n
            (Machine.init p { hay, start, anchored, budget } width cache) = some s ∧
          s.stage = .over verdict ∧
          ((∀ o, next? o = p.prefilter.next? hay.bytes o) →
            p.search { hay, start, anchored, budget } width cache = (verdict, s.cache)) := by
  refine ⟨fun cur hcur t slots ip ht hslots hip => ?_,
    Machine.exists_searched hp.closed { hay, start, anchored, budget } hnext hstart width cache⟩
  have hf : Machine.Following.Sound ⟨t, slots, [.explore ip]⟩ p.instrs.size width :=
    ⟨ht, hslots, List.forall_mem_singleton.mpr hip⟩
  obtain ⟨n, hn, hrun⟩ := Machine.exists_followed hp.closed hcur hf
  exact ⟨n, Nat.le_trans hn (Nat.succ_le_succ (Machine.left_le ht)), hrun⟩

/-- Loops over the empty text in loops, searched from behind the first character on. The prefilter
leaves out nothing. -/
theorem search_terminates_empty_loops : ∃ pattern p,
    Pattern.parse "(?:(a*)*|b??)*" {} = .ok pattern ∧ compile 100 pattern = .ok p ∧
    p.EndsInAccept ∧ (Haystack.ofString "éaac").start.next ∈ (Haystack.ofString "éaac").cursors ∧
    Machine.GoesOnward some (.ofString "éaac") ∧
    (∀ o, some o = p.prefilter.next? (Haystack.ofString "éaac").bytes o) ∧
    ∃ n ≤ 4 * Machine.roundSteps p, ∃ s verdict,
      repeat? (Machine.step p some
          { hay := .ofString "éaac", start := (Haystack.ofString "éaac").start.next } 4) n
        (Machine.init p
          { hay := .ofString "éaac", start := (Haystack.ofString "éaac").start.next } 4 {}) =
          some s ∧
        s.stage = .over verdict ∧
        p.search { hay := .ofString "éaac", start := (Haystack.ofString "éaac").start.next } 4 {} =
          (verdict, s.cache) := by
  obtain ⟨pattern, hparse, p, hcompile, hprefilter⟩ :
      ∃ pattern, Pattern.parse "(?:(a*)*|b??)*" {} = .ok pattern ∧
        ∃ p, compile 100 pattern = .ok p ∧ p.prefilter = .anywhere := by
    with_unfolding_all exact ⟨_, rfl, _, rfl, rfl⟩
  have hnext := Haystack.next_mem_cursors (Haystack.start_mem_cursors (.ofString "éaac"))
  have honward : Machine.GoesOnward some (.ofString "éaac") :=
    fun cur _ _ ho => ⟨cur, cur.mem_onward_self, Option.some.inj ho⟩
  have hown : ∀ o, some o = p.prefilter.next? (Haystack.ofString "éaac").bytes o :=
    fun o => by rw [hprefilter]; rfl
  have hp := compile_endsInAccept hcompile
  obtain ⟨-, n, hn, s, verdict, hrun, hover, hsearch⟩ :=
    search_terminates hp hnext honward false none 4 {}
  exact ⟨pattern, p, hparse, hcompile, hp, hnext, honward, hown, n, hn, s, verdict, hrun, hover,
    hsearch hown⟩

end Program

end LinearRegex
