import LinearRegex.Proofs.CaseFold
import LinearRegex.Proofs.CharSet.Canonical

/-!
# Shorthand classes and case

Whether a character belongs to a shorthand class is a matter of its fold, as long as the class goes
by Unicode or is not the class of words. Of the characters outside of ASCII some have the fold `i`,
`s` or `k`, which are words by ASCII while those characters are not; no other ASCII character is the
fold of one outside.

Main statements: `CaseFold.fold_mem_of_lt`, and `ClassEscape.contains_eq_of_fold`.
-/

namespace LinearRegex

open CharSet

/-- What binary search finds fails the test, in whatever order the elements are. -/
theorem Sorted.eq_false_of_partitionPoint {α : Type} {p : α → Bool} {xs : Array α} {x : α}
    (h : xs[partitionPoint p xs]? = some x) : p x = false := by
  have hbetween : ∀ lo hi, lo ≤ hi → (∀ y, xs[hi]? = some y → p y = false) →
      ∀ y, xs[partitionBetween p xs lo hi]? = some y → p y = false := by
    intro lo hi
    fun_induction partitionBetween p xs lo hi with
    | case1 lo hi hlt mid y hy hp ih => exact fun _ hhi => ih (by omega) hhi
    | case2 lo hi hlt mid y hy hp ih =>
      intro _ _
      refine ih (by omega) fun z hz => ?_
      rw [Option.some.inj (hz.symm.trans hy)]
      exact Bool.eq_false_iff.mpr hp
    | case3 lo hi hlt mid hmid ih =>
      intro _ _
      refine ih (by omega) fun z hz => ?_
      simp [hmid] at hz
    | case4 lo hi hlt =>
      intro hle hhi
      obtain rfl : lo = hi := by omega
      exact hhi
  refine hbetween 0 xs.size (Nat.zero_le _) (fun y hy => ?_) x h
  simp at hy

/-! ## Case mapping and tables -/

namespace Unicode

variable {runs : Array CaseRun} {run : CaseRun} {ivs : List Interval} {code : Nat}

/-- What a code point is mapped to: itself, or what a run that has it leads to. -/
theorem mapCode_eq_or (runs : Array CaseRun) (code : Nat) : mapCode runs code = code ∨
    ∃ run ∈ runs.toList, run.first ≤ code ∧ code ≤ run.last ∧ (code - run.first) % run.step = 0 ∧
      mapCode runs code = run.target + (code - run.first) := by
  unfold mapCode
  split
  · next run hrun =>
    split
    · next hcode =>
      rw [Bool.and_eq_true, decide_eq_true_iff, beq_iff_eq] at hcode
      have hlast := Sorted.eq_false_of_partitionPoint hrun
      rw [decide_eq_false_iff_not, Nat.not_lt] at hlast
      have hmem := Array.mem_toList_iff.mpr (Array.mem_of_getElem? hrun)
      exact .inr ⟨run, hmem, hcode.1, hlast, hcode.2, rfl⟩
    · exact .inl rfl
  · exact .inl rfl

namespace CaseRun

/-- How far it is from the first code point of a run to the last. -/
def reach (run : CaseRun) : Nat := run.last - run.first

/-- Code points at which characters that have case begin again, with many others in front. -/
def landmarks : List Nat := [0x10A0, 0x1C80, 0x2C00, 0xA640, 0x10400, 0x118A0, 0x16E40, 0x1E900]

/-- What is left of several intervals without those that end before the landmarks up to a code
point. Nothing else is found in it, but in a long table it is found sooner. -/
def ahead (code : Nat) : List Nat → List Interval → List Interval
  | [], ivs => ivs
  | mark :: marks, ivs =>
    if mark.ble code then ahead code marks (ivs.dropWhile (·.last.blt mark)) else ivs

/-- Whether a stretch of code points is within one of several intervals, or outside of all of them:
the first interval that does not end before the stretch decides. -/
def side? (ivs : List Interval) (first reach : Nat) : Option Bool :=
  match (ahead first landmarks ivs).find? fun iv => first.ble iv.last with
  | none => some false
  | some iv =>
    if iv.first.ble first && (first + reach).ble iv.last then some true
    else if (first + reach).blt iv.first then some false else none

/-- Whether a run leads from members of a table to members and from others to others: all of it, or
each of its code points. -/
def keeps (ivs : List Interval) (run : CaseRun) : Bool :=
  (side? ivs run.first run.reach).isSome &&
    side? ivs run.first run.reach == side? ivs run.target run.reach ||
  (List.range (run.reach + 1)).all fun d => d % run.step != 0 ||
    side? ivs (run.first + d) 0 == side? ivs (run.target + d) 0

theorem find?_ahead (code : Nat) (marks : List Nat) (ivs : List Interval) :
    (ahead code marks ivs).find? (fun iv => code.ble iv.last) =
      ivs.find? fun iv => code.ble iv.last := by
  induction marks generalizing ivs with
  | nil => rfl
  | cons mark marks ih =>
    unfold ahead
    split
    · next hmark =>
      rw [ih]
      induction ivs with
      | nil => rfl
      | cons iv ivs ihivs =>
        rw [List.dropWhile_cons]
        split
        · next hlast =>
          rw [Nat.ble_eq] at hmark
          rw [Nat.blt_eq] at hlast
          rw [ihivs, List.find?_cons_of_neg (by rw [Nat.ble_eq]; omega)]
        · rfl
    · rfl

/-- **A stretch is within a table or outside of it** as is found. -/
theorem memList_iff_of_side? (hivs : CanonicalList ivs) {first reach d : Nat} {inside : Bool}
    (h : side? ivs first reach = some inside) (hd : d ≤ reach) :
    MemList (first + d) ivs ↔ inside = true := by
  unfold side? at h
  rw [find?_ahead] at h
  split at h
  · next hnone =>
    obtain rfl := Option.some.inj h
    refine iff_of_false ?_ Bool.false_ne_true
    rintro ⟨iv, hiv, -, hlast⟩
    have := List.find?_eq_none.mp hnone iv hiv
    rw [Nat.ble_eq] at this
    omega
  · next iv hsome =>
    obtain ⟨-, before, after, rfl, hbefore⟩ := List.find?_eq_some_iff_append.mp hsome
    split at h
    · next hin =>
      obtain rfl := Option.some.inj h
      rw [Bool.and_eq_true, Nat.ble_eq, Nat.ble_eq] at hin
      exact iff_of_true ⟨iv, by simp, by omega, by omega⟩ rfl
    · split at h
      · next hout =>
        obtain rfl := Option.some.inj h
        rw [Nat.blt_eq] at hout
        refine iff_of_false ?_ Bool.false_ne_true
        rintro ⟨x, hx, hfirst, hlast⟩
        -- What is in front of the interval ends too soon, what follows it begins too late.
        rcases List.mem_append.mp hx with hx | hx
        · have := hbefore x hx
          rw [Bool.not_eq_true', ← Bool.not_eq_true, Nat.ble_eq] at this
          omega
        · rcases List.mem_cons.mp hx with rfl | hx
          · omega
          · have hsorted := (List.pairwise_append.mp hivs.sorted).2.1
            have := precedes_iff.mp ((List.pairwise_cons.mp hsorted).1 x hx)
            have := (hivs.proper iv (by simp)).ordered
            omega
      · simp at h

theorem isSome_side?_zero (ivs : List Interval) (code : Nat) :
    (side? ivs code 0).isSome = true := by
  unfold side?
  split
  · rfl
  · next iv hsome =>
    have hlast := List.find?_some hsome
    rw [Nat.ble_eq] at hlast
    split
    · rfl
    · next hin =>
      rw [Bool.and_eq_true, Nat.ble_eq, Nat.ble_eq] at hin
      rw [if_pos (by rw [Nat.blt_eq]; omega)]
      rfl

theorem memList_iff_of_keeps (hivs : CanonicalList ivs) (h : run.keeps ivs = true) {d : Nat}
    (hd : d ≤ run.reach) (hstep : d % run.step = 0) :
    MemList (run.target + d) ivs ↔ MemList (run.first + d) ivs := by
  unfold keeps at h
  rw [Bool.or_eq_true, Bool.and_eq_true, beq_iff_eq] at h
  rcases h with ⟨hsome, heq⟩ | h
  · obtain ⟨inside, hfirst⟩ := Option.isSome_iff_exists.mp hsome
    rw [memList_iff_of_side? hivs hfirst hd, memList_iff_of_side? hivs (heq.symm.trans hfirst) hd]
  · have h := List.all_eq_true.mp h d (List.mem_range.mpr (Nat.lt_succ_of_le hd))
    rw [hstep, bne_self_eq_false, Bool.false_or, beq_iff_eq] at h
    obtain ⟨inside, hfirst⟩ := Option.isSome_iff_exists.mp (isSome_side?_zero ivs (run.first + d))
    exact (memList_iff_of_side? hivs (h.symm.trans hfirst) (Nat.le_refl 0)).trans
      (memList_iff_of_side? hivs hfirst (Nat.le_refl 0)).symm

end CaseRun

/-- **Case mapping keeps to a table** if every run does. -/
theorem memList_mapCode_iff (hivs : CanonicalList ivs) (h : runs.toList.all (·.keeps ivs) = true) :
    MemList (mapCode runs code) ivs ↔ MemList code ivs := by
  rcases mapCode_eq_or runs code with heq | ⟨run, hrun, hfirst, hlast, hstep, heq⟩
  · rw [heq]
  · have hkeeps := List.all_eq_true.mp h run hrun
    rw [heq, CaseRun.memList_iff_of_keeps hivs hkeeps (Nat.sub_le_sub_right hlast _) hstep,
      Nat.add_sub_cancel' hfirst]

/-- Whether a run leads to code points of characters. -/
def CaseRun.LeadsToChars (run : CaseRun) : Prop :=
  run.target + run.reach < 0xD800 ∨ 0xDFFF < run.target ∧ run.target + run.reach < 0x110000

instance (run : CaseRun) : Decidable run.LeadsToChars :=
  inferInstanceAs (Decidable (_ ∨ _))

/-- Where all runs lead to characters, so does the mapping. -/
theorem toNat_map (h : ∀ run ∈ runs.toList, run.LeadsToChars) (c : Char) :
    (Char.ofNat (mapCode runs c.toNat)).toNat = mapCode runs c.toNat := by
  have hvalid : (mapCode runs c.toNat).isValidChar := by
    rcases mapCode_eq_or runs c.toNat with heq | ⟨run, hrun, hfirst, hlast, -, heq⟩
    · rw [heq]
      exact c.valid
    · have htarget := h run hrun
      unfold CaseRun.LeadsToChars CaseRun.reach at htarget
      rw [heq]
      unfold Nat.isValidChar
      omega
  rw [toNat_ofNat, if_pos hvalid]

/-- The runs lead to characters. From outside of ASCII they lead into it only to `I` and `S` in
upper case, and from the Kelvin sign to `k` in lower case. -/
theorem runs_lead :
    (∀ run ∈ upperRuns.toList, run.LeadsToChars ∧ (run.last < 0x80 ∨ 0x80 ≤ run.target ∨
      run = ⟨0x131, 0x131, 1, 0x49⟩ ∨ run = ⟨0x17F, 0x17F, 1, 0x53⟩)) ∧
    ∀ run ∈ lowerRuns.toList, run.LeadsToChars ∧ (run.last < 0x80 ∨ 0x80 ≤ run.target ∨
      run = ⟨0x212A, 0x212A, 1, 0x6B⟩) := by
  decide +kernel

theorem toNat_upper (c : Char) : (upper c).toNat = mapCode upperRuns c.toNat :=
  toNat_map (fun run hrun => (runs_lead.1 run hrun).1) c

theorem toNat_lower (c : Char) : (lower c).toNat = mapCode lowerRuns c.toNat :=
  toNat_map (fun run hrun => (runs_lead.2 run hrun).1) c

end Unicode

/-! ## Folds -/

namespace CaseFold

open Unicode

variable {c d : Char} {ivs : List Interval}

theorem toNat_toLower (hc : c.toNat < 0x80) :
    c.toLower.toNat = if 0x41 ≤ c.toNat ∧ c.toNat ≤ 0x5A then c.toNat + 0x20 else c.toNat := by
  have hall : ∀ n < 0x80, (Char.ofNat n).toLower.toNat =
      if 0x41 ≤ n ∧ n ≤ 0x5A then n + 0x20 else n := by decide
  simpa only [Char.ofNat_toNat] using hall c.toNat hc

/-- **Folding keeps to a table** if case mapping does. -/
theorem memList_fold_iff (hivs : CanonicalList ivs)
    (hupper : upperRuns.toList.all (·.keeps ivs) = true)
    (hlower : lowerRuns.toList.all (·.keeps ivs) = true) :
    MemList (fold c).toNat ivs ↔ MemList c.toNat ivs := by
  unfold fold
  split
  · next hlt =>
    rw [toNat_toLower hlt]
    split
    · next hletter =>
      -- The letters of ASCII are the first run of the lower case.
      have hhead : lowerRuns.toList.head? = some ⟨0x41, 0x5A, 1, 0x61⟩ := rfl
      have hkeeps := CaseRun.memList_iff_of_keeps hivs (d := c.toNat - 0x41)
        (List.all_eq_true.mp hlower _ (List.mem_of_mem_head? hhead))
        (Nat.sub_le_sub_right hletter.2 _) (Nat.mod_one _)
      have htarget : 0x61 + (c.toNat - 0x41) = c.toNat + 0x20 := by omega
      dsimp only at hkeeps
      rwa [htarget, Nat.add_sub_cancel' hletter.1] at hkeeps
    · rfl
  · rw [toNat_lower, memList_mapCode_iff hivs hlower, toNat_upper, memList_mapCode_iff hivs hupper]

/-- **Few folds lead from outside of ASCII into it.** -/
theorem fold_mem_of_lt (hc : 0x80 ≤ c.toNat) (hfold : (fold c).toNat < 0x80) :
    fold c ∈ ['i', 's', 'k'] := by
  have hmem : ∀ n ∈ [0x69, 0x73, 0x6B], ∀ d : Char, d.toNat = n → d ∈ ['i', 's', 'k'] := by
    intro n hn d hd
    have hall : ∀ n ∈ [0x69, 0x73, 0x6B], Char.ofNat n ∈ ['i', 's', 'k'] := by decide
    rw [← Char.ofNat_toNat d, hd]
    exact hall n hn
  -- The lower case of a character outside of ASCII is in ASCII only for the Kelvin sign.
  have hlower : ∀ code, 0x80 ≤ code → mapCode lowerRuns code < 0x80 →
      mapCode lowerRuns code = 0x6B := by
    intro code hcode hlt
    rcases mapCode_eq_or lowerRuns code with heq | ⟨run, hrun, hfirst, hlast, -, heq⟩
    · omega
    · rcases (runs_lead.2 run hrun).2 with hlow | hhigh | rfl
      · omega
      · omega
      · dsimp only at hfirst hlast heq
        omega
  have htoNat : (fold c).toNat = mapCode lowerRuns (mapCode upperRuns c.toNat) := by
    unfold fold
    rw [if_neg (by omega), toNat_lower, toNat_upper]
  rw [htoNat] at hfold
  rcases mapCode_eq_or upperRuns c.toNat with heq | ⟨run, hrun, hfirst, hlast, -, heq⟩
  · rw [heq] at htoNat hfold
    exact hmem 0x6B (by simp) _ (htoNat.trans (hlower _ hc hfold))
  · rcases (runs_lead.1 run hrun).2 with hlow | hhigh | rfl | rfl
    · omega
    · exact hmem 0x6B (by simp) _ (htoNat.trans (hlower _ (by omega) hfold))
    · have hcode : c.toNat = 0x131 := Nat.le_antisymm hlast hfirst
      rw [hcode] at htoNat
      exact hmem 0x69 (by simp) _ (htoNat.trans (by decide +kernel))
    · have hcode : c.toNat = 0x17F := Nat.le_antisymm hlast hfirst
      rw [hcode] at htoNat
      exact hmem 0x73 (by simp) _ (htoNat.trans (by decide +kernel))

end CaseFold

/-! ## Tables -/

/-- Intervals that follow each other are canonical. -/
theorem CharSet.canonicalList_of_isChain {ivs : List Interval}
    (hchain : ivs.IsChain (·.precedes · = true))
    (hproper : ∀ iv ∈ ivs, iv.first ≤ iv.last ∧ iv.last ≤ maxCodePoint) : CanonicalList ivs := by
  induction ivs with
  | nil => exact .nil
  | cons iv ivs ih =>
    obtain ⟨hiv, hivs⟩ := List.forall_mem_cons.mp hproper
    cases ivs with
    | nil => exact CanonicalList.nil.cons ⟨hiv.1, hiv.2⟩ (by simp)
    | cons y ivs =>
      obtain ⟨hy, hchain⟩ := List.isChain_cons_cons.mp hchain
      have hy := precedes_iff.mp hy
      have hcanonical := ih hchain hivs
      refine hcanonical.cons ⟨hiv.1, hiv.2⟩ fun x hx => ?_
      rcases List.mem_cons.mp hx with rfl | hx
      · exact hy
      · have := hcanonical.head_lt x hx
        have := (hivs y List.mem_cons_self).1
        omega

namespace CharClass

open Unicode CaseFold

variable {cls : CharClass} {c : Char}

/-- Whether the intervals of a table follow each other, and case mapping keeps to them. -/
structure Cased (ivs : List Interval) : Prop where
  chain : ivs.IsChain (·.precedes · = true)
  proper : ∀ iv ∈ ivs, iv.first ≤ iv.last ∧ iv.last ≤ maxCodePoint
  upper : upperRuns.toList.all (·.keeps ivs) = true
  lower : lowerRuns.toList.all (·.keeps ivs) = true

instance (ivs : List Interval) : Decidable (Cased ivs) :=
  decidable_of_iff (ivs.IsChain (·.precedes · = true) ∧
      (∀ iv ∈ ivs, iv.first ≤ iv.last ∧ iv.last ≤ maxCodePoint) ∧
      upperRuns.toList.all (·.keeps ivs) = true ∧ lowerRuns.toList.all (·.keeps ivs) = true)
    ⟨fun ⟨hchain, hproper, hupper, hlower⟩ => ⟨hchain, hproper, hupper, hlower⟩,
      fun ⟨hchain, hproper, hupper, hlower⟩ => ⟨hchain, hproper, hupper, hlower⟩⟩

theorem Cased.canonical {s : CharSet} (h : Cased s.intervals.toList) : s.Canonical :=
  canonicalList_of_isChain h.chain h.proper

theorem Cased.contains_fold {s : CharSet} (h : Cased s.intervals.toList) :
    s.contains (fold c).toNat = s.contains c.toNat := by
  rw [Bool.eq_iff_iff, contains_iff h.canonical, contains_iff h.canonical]
  exact memList_fold_iff h.canonical h.upper h.lower

/-- The underscore as a table. -/
def underscore : CharSet := .ofPairs [(0x5F, 0x5F)]

theorem cased_tables : Cased numeric.intervals.toList ∧ Cased whiteSpace.intervals.toList ∧
    Cased underscore.intervals.toList ∧ Cased alphanumeric.intervals.toList := by
  decide +kernel

/-! ## Shorthand classes -/

theorem contains_ascii_iff : cls.contains c false = true ↔ MemList c.toNat cls.asciiIntervals := by
  unfold MemList CharClass.contains Interval.contains
  simp

theorem contains_true (cls : CharClass) (c : Char) : cls.contains c true = match cls with
    | .digits => numeric.contains c.toNat
    | .spaces => whiteSpace.contains c.toNat
    | .words => alphanumeric.contains c.toNat || c == '_' := if_pos rfl

/-- **By Unicode, a class has all characters of a fold or none.** -/
theorem contains_fold_unicode : cls.contains (fold c) true = cls.contains c true := by
  rw [contains_true, contains_true]
  obtain ⟨hnumeric, hspace, hunderscore, halphanumeric⟩ := cased_tables
  cases cls with
  | digits => exact hnumeric.contains_fold
  | spaces => exact hspace.contains_fold
  | words =>
    have hcontains : ∀ d : Char, (d == '_') = underscore.contains d.toNat := by
      intro d
      rw [Bool.eq_iff_iff, beq_iff_eq, contains_iff hunderscore.canonical, ← Char.toNat_inj]
      show d.toNat = 0x5F ↔ MemList d.toNat [⟨0x5F, 0x5F⟩]
      simp [Nat.le_antisymm_iff, and_comm]
    dsimp only
    rw [halphanumeric.contains_fold, hcontains, hcontains, hunderscore.contains_fold]

/-- **By ASCII, so does a class** unless it has letters and the fold is that of a character outside
of ASCII. -/
theorem contains_fold_ascii (h : cls ≠ .words ∨ fold c ∉ ['i', 's', 'k']) :
    cls.contains (fold c) false = cls.contains c false := by
  have houtside : ∀ d : Char, 0x80 ≤ d.toNat → cls.contains d false = false := by
    intro d hd
    rw [← Bool.not_eq_true, contains_ascii_iff]
    rintro ⟨iv, hiv, -, hlast⟩
    have hall : ∀ cls : CharClass, ∀ iv ∈ cls.asciiIntervals, iv.last < 0x80 := by
      intro cls
      cases cls <;> decide
    have := hall cls iv hiv
    omega
  by_cases hc : c.toNat < 0x80
  · have hall : ∀ cls : CharClass, ∀ n < 0x80,
        cls.contains (Char.ofNat n).toLower false = cls.contains (Char.ofNat n) false := by
      intro cls
      cases cls <;> decide
    have := hall cls c.toNat hc
    rw [Char.ofNat_toNat] at this
    unfold fold
    rw [if_pos hc, this]
  · rw [houtside c (Nat.le_of_not_lt hc)]
    by_cases hfold : (fold c).toNat < 0x80
    · have hmem := fold_mem_of_lt (Nat.le_of_not_lt hc) hfold
      have hall : ∀ cls : CharClass, cls ≠ .words → ∀ d ∈ ['i', 's', 'k'],
          cls.contains d false = false := by
        intro cls hne d hd
        simp only [List.mem_cons, List.not_mem_nil, or_false] at hd
        cases cls with
        | words => exact absurd rfl hne
        | _ => rcases hd with rfl | rfl | rfl <;> decide
      rcases h with hne | hnot
      · exact hall cls hne _ hmem
      · exact absurd hmem hnot
    · exact houtside _ (Nat.le_of_not_lt hfold)

end CharClass

/-- **A shorthand class cannot tell apart characters with one fold**, unless it is that of words, or
of what is none, and goes by ASCII, and the fold is that of a character outside of ASCII. -/
theorem ClassEscape.contains_eq_of_fold {e : ClassEscape} {unicode : Bool} {c d : Char}
    (h : unicode = true ∨ e.cls ≠ .words ∨ CaseFold.fold c ∉ ['i', 's', 'k'])
    (hfold : CaseFold.fold d = CaseFold.fold c) :
    e.contains d unicode = e.contains c unicode := by
  have hcls : e.cls.contains d unicode = e.cls.contains c unicode := by
    cases unicode with
    | true => rw [← CharClass.contains_fold_unicode, hfold, CharClass.contains_fold_unicode]
    | false =>
      have h := h.resolve_left Bool.false_ne_true
      rw [← CharClass.contains_fold_ascii (hfold ▸ h), hfold, CharClass.contains_fold_ascii h]
  unfold contains
  rw [hcls]

end LinearRegex
