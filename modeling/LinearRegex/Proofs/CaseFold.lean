import LinearRegex.CaseFold
import LinearRegex.Proofs.Sorted
import Mathlib.Data.List.Nodup
import Mathlib.Data.String.Basic
import Mathlib.Order.Compare
import Mathlib.Tactic.ByContra

/-!
# Orbits

The orbit of a character that is found in the table holds just the characters with its fold, each of
them once. This is so for every fold function that leaves alone what lies above the characters with
case, even if folds have other folds. The Unicode fold is one, and it takes no other character to
the newline.

Main statements: `classes_by` for any fold function, and `mem_orbit_iff`.
-/

namespace LinearRegex

/-! ## Code points -/

/-- What is no code point of a character stands for the first one. -/
theorem toNat_ofNat (n : Nat) :
    (Char.ofNat n).toNat = if n.isValidChar then n else 0 := by
  unfold Char.ofNat
  by_cases h : n.isValidChar
  · rw [dif_pos h, if_pos h]
    rfl
  · rw [dif_neg h, if_neg h]
    rfl

/-! ## Case mapping -/

namespace Unicode

variable {runs : Array CaseRun} {c : Char}

/-- What lies behind all runs is mapped to itself. -/
theorem map_of_lt {last : Nat} (h : ∀ run ∈ runs, run.last ≤ last) (hc : last < c.toNat) :
    Char.ofNat (mapCode runs c.toNat) = c := by
  have hall : ∀ (i : Nat) (run : CaseRun), runs[i]? = some run →
      decide (run.last < c.toNat) = true :=
    fun i run hrun => decide_eq_true (Nat.lt_of_le_of_lt (h run (Array.mem_of_getElem? hrun)) hc)
  have hpoint : Sorted.IsPoint (fun run : CaseRun => decide (run.last < c.toNat)) runs
      (Sorted.partitionPoint (fun run => run.last < c.toNat) runs) :=
    Sorted.partitionPoint_spec fun i _ x _ _ hx _ _ => hall i x hx
  unfold mapCode
  split
  · next run hrun =>
    exact absurd (hall _ run hrun) (by rw [hpoint.after _ run (Nat.le_refl _) hrun]; simp)
  · exact Char.ofNat_toNat c

/-- Nothing else is mapped to the newline if no run leads that far down. -/
theorem eq_newline_of_map (h : ∀ run ∈ runs, 10 < run.target)
    (hc : Char.ofNat (mapCode runs c.toNat) = '\n') : c = '\n' := by
  have hcode : mapCode runs c.toNat = 10 := by
    have htoNat := congrArg Char.toNat hc
    rw [toNat_ofNat] at htoNat
    split at htoNat
    · exact htoNat
    · simp at htoNat
  unfold mapCode at hcode
  have hnewline : c.toNat = 10 := by
    split at hcode
    · next run hrun =>
      have := h run (Array.mem_of_getElem? hrun)
      split at hcode
      · omega
      · exact hcode
    · exact hcode
  rw [← Char.ofNat_toNat c, hnewline]

/-- The runs lie in the range of the characters that have case, and lead to places behind the
newline. -/
theorem upperRuns_spec : ∀ run ∈ upperRuns, run.last ≤ CaseFold.lastCased ∧ 10 < run.target := by
  decide +kernel

theorem lowerRuns_spec : ∀ run ∈ lowerRuns, run.last ≤ CaseFold.lastCased ∧ 10 < run.target := by
  decide +kernel

end Unicode

namespace CaseFold

/-! ## The table of unfoldings -/

theorem mem_casedRange_iff {c : Char} : c ∈ casedRange ↔ c.toNat ≤ lastCased := by
  unfold casedRange
  rw [List.mem_filterMap]
  constructor
  · rintro ⟨n, hn, h⟩
    split at h
    · next hvalid =>
      rw [← Option.some.inj h, toNat_ofNat, if_pos hvalid]
      exact Nat.lt_succ_iff.mp (List.mem_range.mp hn)
    · simp at h
  · intro hle
    refine ⟨c.toNat, List.mem_range.mpr (Nat.lt_succ_iff.mpr hle), ?_⟩
    have hvalid : c.toNat.isValidChar := c.valid
    rw [if_pos hvalid, Char.ofNat_toNat]

section

variable {fold : Char → Char} {c d f : Char}

theorem mem_unfoldings_iff :
    (f, c) ∈ unfoldings fold ↔ c.toNat ≤ lastCased ∧ fold c ≠ c ∧ fold c = f := by
  unfold unfoldings
  rw [List.mem_toArray, List.mem_mergeSort, List.mem_filterMap, ← mem_casedRange_iff]
  constructor
  · rintro ⟨d, hd, h⟩
    split at h
    · simp at h
    · next hne =>
      obtain ⟨rfl, rfl⟩ := Prod.mk.inj (Option.some.inj h)
      exact ⟨hd, hne, rfl⟩
  · rintro ⟨hc, hne, rfl⟩
    exact ⟨c, hc, if_neg hne⟩

theorem pairwise_mergeSort (entries : List (Char × Char)) :
    (entries.mergeSort fun a b => a.1 ≤ b.1).Pairwise fun a b => a.1 ≤ b.1 := by
  have htrans : ∀ a b c : Char × Char,
      decide (a.1 ≤ b.1) = true → decide (b.1 ≤ c.1) = true → decide (a.1 ≤ c.1) = true := by
    intro a b c hab hbc
    exact decide_eq_true (le_trans (of_decide_eq_true hab) (of_decide_eq_true hbc))
  have htotal : ∀ a b : Char × Char, (decide (a.1 ≤ b.1) || decide (b.1 ≤ a.1)) = true := by
    intro a b
    rw [Bool.or_eq_true, decide_eq_true_iff, decide_eq_true_iff]
    exact le_total a.1 b.1
  exact (List.pairwise_mergeSort htrans htotal entries).imp of_decide_eq_true

/-- The table is sorted by fold. -/
theorem unfoldings_le {i j : Nat} {x y : Char × Char} (hij : i ≤ j)
    (hx : (unfoldings fold)[i]? = some x) (hy : (unfoldings fold)[j]? = some y) : x.1 ≤ y.1 := by
  unfold unfoldings at hx hy
  rw [List.getElem?_toArray] at hx hy
  rcases Nat.eq_or_lt_of_le hij with rfl | hlt
  · rw [Option.some.inj (hx.symm.trans hy)]
  · obtain ⟨hi, rfl⟩ := List.getElem?_eq_some_iff.mp hx
    obtain ⟨hj, rfl⟩ := List.getElem?_eq_some_iff.mp hy
    exact List.pairwise_iff_getElem.mp (pairwise_mergeSort _) i j hi hj hlt

theorem mem_equalElements_unfoldings_iff :
    (f, c) ∈ Sorted.equalElements (fun entry => compare entry.1 d) (unfoldings fold) ↔
      (f, c) ∈ unfoldings fold ∧ f = d := by
  rw [Sorted.mem_equalElements_iff, compare_eq_iff_eq]
  · intro i j x y hij hx hy h
    rw [beq_iff_eq, compare_lt_iff_lt] at h ⊢
    exact lt_of_le_of_lt (unfoldings_le hij hx hy) h
  · intro i j x y hij hx hy h
    rw [bne_iff_ne, ne_eq, compare_gt_iff_gt, not_lt] at h ⊢
    exact le_trans (unfoldings_le hij hx hy) h

theorem nodup_casedRange : casedRange.Nodup := by
  have hinj : ∀ m n c, c ∈ (if m.isValidChar then some (Char.ofNat m) else none) →
      c ∈ (if n.isValidChar then some (Char.ofNat n) else none) → m = n := by
    have hcode : ∀ n c, c ∈ (if n.isValidChar then some (Char.ofNat n) else none) →
        c.toNat = n := by
      intro n c hc
      split at hc
      · next hvalid => rw [← Option.some.inj hc, toNat_ofNat, if_pos hvalid]
      · simp at hc
    exact fun m n c hm hn => (hcode m c hm).symm.trans (hcode n c hn)
  exact List.Nodup.filterMap hinj List.nodup_range

/-- The table has each character once. -/
theorem nodup_unfoldings (fold : Char → Char) : ((unfoldings fold).toList.map (·.2)).Nodup := by
  have hmoved : (casedRange.filterMap fun c => if fold c = c then none else some (fold c, c)).map
      (·.2) = casedRange.filter fun c => fold c ≠ c := by
    rw [List.map_filterMap, ← List.filterMap_eq_filter]
    congr 1
    funext c
    by_cases hc : fold c = c <;> simp [hc, Option.guard]
  unfold unfoldings
  rw [((List.mergeSort_perm _ _).map _).nodup_iff, hmoved]
  exact nodup_casedRange.filter _

/-- What the table has of an orbit: its members that are not their own fold. -/
theorem mem_moved_iff (h : ∀ c, lastCased < c.toNat → fold c = c) :
    d ∈ (Sorted.equalElements (fun entry => compare entry.1 f) (unfoldings fold)).map (·.2) ↔
      fold d ≠ d ∧ fold d = f := by
  rw [List.mem_map]
  constructor
  · rintro ⟨⟨g, e⟩, hmem, rfl⟩
    obtain ⟨hmem, heq⟩ := mem_equalElements_unfoldings_iff.mp hmem
    obtain ⟨-, hne, hfold⟩ := mem_unfoldings_iff.mp hmem
    exact ⟨hne, hfold.trans heq⟩
  · rintro ⟨hne, rfl⟩
    have hcased : d.toNat ≤ lastCased := Nat.le_of_not_lt fun hlt => hne (h d hlt)
    have hmem := mem_unfoldings_iff.mpr ⟨hcased, hne, rfl⟩
    exact ⟨(fold d, d), mem_equalElements_unfoldings_iff.mpr ⟨hmem, rfl⟩, rfl⟩

/-- The orbit of a character by a fold function, with the table of its own unfoldings. -/
def orbitBy (fold : Char → Char) (c : Char) : List Char := orbitIn fold (unfoldings fold) c

/-- Whether some other character has the same fold, by a fold function. -/
def hasVariantsBy (fold : Char → Char) (c : Char) : Bool := (orbitBy fold c).any (· != c)

/-- **The orbit of a character holds just the characters with its fold.** -/
theorem mem_orbitBy_iff (h : ∀ c, lastCased < c.toNat → fold c = c) :
    d ∈ orbitBy fold c ↔ fold d = fold c := by
  unfold orbitBy orbitIn
  dsimp only
  split
  · next hroot =>
    rw [List.mem_cons, mem_moved_iff h]
    constructor
    · rintro (rfl | ⟨-, heq⟩)
      · exact hroot
      · exact heq
    · intro heq
      by_cases hd : fold d = d
      · exact Or.inl (hd ▸ heq)
      · exact Or.inr ⟨hd, heq⟩
  · next hroot =>
    rw [mem_moved_iff h]
    exact ⟨And.right, fun heq => ⟨fun hd => hroot (by rw [← heq, hd, hd]), heq⟩⟩

/-- The orbit of a character holds each of its members once: the one that is its own fold is not in
the table. -/
theorem nodup_orbitBy (h : ∀ c, lastCased < c.toNat → fold c = c) (c : Char) :
    (orbitBy fold c).Nodup := by
  have hsublist := Sorted.equalElements_sublist
    (fun entry : Char × Char => compare entry.1 (fold c)) (unfoldings fold)
  have hmoved := (nodup_unfoldings fold).sublist (hsublist.map Prod.snd)
  unfold orbitBy orbitIn
  dsimp only
  split
  · next hroot =>
    refine List.nodup_cons.mpr ⟨fun hmem => ?_, hmoved⟩
    exact ((mem_moved_iff h).mp hmem).1 hroot
  · exact hmoved

/-- Whether orbits are the classes of the characters with one fold, and a character has variants
where its class has another member. -/
structure Classes (fold : Char → Char) (orbit : Char → List Char) (hasVariants : Char → Bool) :
    Prop where
  nodup : ∀ c, (orbit c).Nodup
  mem_iff : ∀ {c d}, d ∈ orbit c ↔ fold d = fold c
  hasVariants_iff : ∀ {c}, hasVariants c = true ↔ ∃ d, d ≠ c ∧ fold d = fold c

/-- **Orbits are the classes of a fold function**, of whatever kind it is. -/
theorem classes_by (h : ∀ c, lastCased < c.toNat → fold c = c) :
    Classes fold (orbitBy fold) (hasVariantsBy fold) where
  nodup := nodup_orbitBy h
  mem_iff := mem_orbitBy_iff h
  hasVariants_iff := by
    intro c
    unfold hasVariantsBy
    simp only [List.any_eq_true, bne_iff_ne, mem_orbitBy_iff h]
    exact exists_congr fun d => and_comm

end

/-! ## The Unicode fold -/

theorem fold_of_lastCased_lt {c : Char} (h : lastCased < c.toNat) : fold c = c := by
  have hupper : Unicode.upper c = c :=
    Unicode.map_of_lt (fun run hrun => (Unicode.upperRuns_spec run hrun).1) h
  have hlower : Unicode.lower c = c :=
    Unicode.map_of_lt (fun run hrun => (Unicode.lowerRuns_spec run hrun).1) h
  unfold fold
  rw [if_neg (by unfold lastCased at h; omega), hupper, hlower]

theorem eq_newline_of_toLower {c : Char} (hc : c.toNat < 0x80) (h : c.toLower = '\n') :
    c = '\n' := by
  have hall : ∀ n < 0x80, (Char.ofNat n).toLower = '\n' → Char.ofNat n = '\n' := by decide
  simpa only [Char.ofNat_toNat] using hall c.toNat hc (by rwa [Char.ofNat_toNat])

/-- No other character is taken to the newline. -/
theorem fold_eq_newline_iff {c : Char} : fold c = '\n' ↔ c = '\n' := by
  constructor
  · intro h
    unfold fold at h
    split at h
    · next hascii => exact eq_newline_of_toLower hascii h
    · have hupper : Unicode.upper c = '\n' :=
        Unicode.eq_newline_of_map (fun run hrun => (Unicode.lowerRuns_spec run hrun).2) h
      exact Unicode.eq_newline_of_map (fun run hrun => (Unicode.upperRuns_spec run hrun).2) hupper
  · rintro rfl
    rfl

/-- **The orbits of the Unicode fold are its classes.** -/
theorem classes_fold : Classes fold orbit hasVariants := classes_by fun _ => fold_of_lastCased_lt

/-- **The orbit of a character holds just the characters that match it without regard to case.** -/
theorem mem_orbit_iff {c d : Char} : d ∈ orbit c ↔ fold d = fold c := classes_fold.mem_iff

theorem orbit_congr {c d : Char} (h : fold c = fold d) : orbit c = orbit d := by
  unfold orbit orbitIn
  rw [h]

/-- A character without variants is the only one with its fold. -/
theorem eq_of_not_hasVariants {c d : Char} (hc : hasVariants c = false) (h : fold d = fold c) :
    d = c := by
  by_contra hne
  rw [classes_fold.hasVariants_iff.mpr ⟨d, hne, h⟩] at hc
  simp at hc

end CaseFold

end LinearRegex
