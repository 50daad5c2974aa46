import LinearRegex.Proofs.Engine.Trails
import LinearRegex.Proofs.Pattern.AlikeTrails
import LinearRegex.Proofs.Regex.Width

/-!
# Matching without regard to case

Where case is ignored, what is found in a text depends on the folds of its characters only. Texts
with the same folds need not have the same number of bytes, so it is in characters that their
matches begin and end at the same places.

Main statement: `Regex.find_of_fold_eq`.
-/

namespace LinearRegex

/-! ## Searches in both texts -/

/-- **Searches from places that are alike find the same**, counted in characters. -/
theorem Program.exists_finds_alike {source : String} {flags : Flags} {limit : Nat}
    {pattern : Pattern} {p : Program} {hay hay' : Haystack} {start start' : Cursor}
    (hparse : Pattern.parse source flags = .ok pattern) (hcompile : compile limit pattern = .ok p)
    (hfold : pattern.node.FoldInvariant) (h : start.Alike hay hay' start') (width : Nat) :
    ∃ found found', p.Finds { hay, start } width found ∧
      p.Finds { hay := hay', start := start' } width found' ∧
      found.map (Slots.inChars hay) = found'.map (Slots.inChars hay') :=
  exists_finds_related hparse hcompile h.mem h.mem' h.forall₂_onward fun _ _ hq =>
    Pattern.firstTrail_alike hfold hq width

/-! ## Matches in both texts -/

/-- Where a stretch of a text begins and ends, counted in characters. -/
def Span.inChars (hay : Haystack) (s : Span) : Span :=
  ⟨hay.charsBefore s.start, hay.charsBefore s.stop⟩

theorem Span.inChars_ofSlots? (hay : Haystack) (slots : Slots) :
    (ofSlots? (slots.getD 0 none) (slots.getD 1 none)).map (inChars hay) =
      ofSlots? ((slots.inChars hay).getD 0 none) ((slots.inChars hay).getD 1 none) := by
  have hgetD : ∀ i, (slots.inChars hay).getD i none =
      (slots.getD i none).map hay.charsBefore := by
    intro i
    rw [Array.getD_eq_getD_getElem?, Array.getD_eq_getD_getElem?, Slots.inChars,
      Array.getElem?_map]
    cases slots[i]? <;> rfl
  rw [hgetD, hgetD]
  cases slots.getD 0 none <;> cases slots.getD 1 none <;> rfl

namespace Regex

theorem findFrom_inChars {re : Regex} {hay : Haystack} {start : Cursor} {found : Option Slots}
    (h : re.program.Finds { hay, start } 2 found) :
    (re.findFrom hay start).map (fun m => m.toSpan.inChars hay) =
      (found.map (Slots.inChars hay)).bind fun slots =>
        Span.ofSlots? (slots.getD 0 none) (slots.getD 1 none) := by
  rw [findFrom_of_finds h rfl]
  cases found with
  | none => rfl
  | some slots =>
    rw [Option.bind_some, Option.map_some, Option.bind_some, ← Span.inChars_ofSlots?,
      Option.map_map]
    rfl

/-- **Where case is ignored, matching depends on folds only.** If all tokens of a pattern go by
folds under the flags in force where they stand, and the characters of two texts have the same folds
one by one, then there is a match in both texts or in neither, and the first matches begin and end
behind the same numbers of characters. -/
theorem find_of_fold_eq {pattern : String} {options : Options} {re : Regex} {hay hay' : Haystack}
    (hbuild : build pattern options = .ok re) (hpattern : Pattern.GoesByFold pattern options.flags)
    (hchars : hay.chars.map CaseFold.fold = hay'.chars.map CaseFold.fold) :
    re.isMatch hay = re.isMatch hay' ∧
      (re.find hay).map (fun m => m.toSpan.inChars hay) =
        (re.find hay').map (fun m => m.toSpan.inChars hay') := by
  obtain ⟨tree, hparse, hcompile⟩ := exists_parse_of_build hbuild
  have hfold := Pattern.foldInvariant_of_parse hparse hpattern
  have hfinds := Program.exists_finds_alike hparse hcompile hfold (Cursor.Alike.start hchars)
  refine ⟨?_, ?_⟩
  · obtain ⟨found, found', h, h', hsame⟩ := hfinds 0
    unfold isMatch
    rw [isMatchFrom_of_finds h rfl, isMatchFrom_of_finds h' rfl,
      ← Option.isSome_map (f := Slots.inChars hay), hsame, Option.isSome_map]
  · obtain ⟨found, found', h, h', hsame⟩ := hfinds 2
    unfold find
    rw [findFrom_inChars h, findFrom_inChars h', hsame]

/-- The Kelvin sign has the fold of a letter that takes two bytes less. -/
theorem find_of_fold_eq_kelvin : ∃ re hay hay',
    build "[k-m].+$" { flags := { ignoreCase := true } } = .ok re ∧
    Pattern.GoesByFold "[k-m].+$" { ignoreCase := true } ∧
    hay = Haystack.ofString "1 KiLo" ∧ hay' = Haystack.ofString "1 \u212AIlO" ∧
    hay.bytes.size ≠ hay'.bytes.size ∧
    hay.chars.map CaseFold.fold = hay'.chars.map CaseFold.fold ∧
    re.isMatch hay = re.isMatch hay' ∧
    (re.find hay).map (fun m => m.toSpan.inChars hay) =
      (re.find hay').map (fun m => m.toSpan.inChars hay') := by
  obtain ⟨re, hbuild⟩ : ∃ re, build "[k-m].+$" { flags := { ignoreCase := true } } = .ok re := by
    with_unfolding_all exact ⟨_, rfl⟩
  have hpattern : Pattern.GoesByFold "[k-m].+$" { ignoreCase := true } := by
    with_unfolding_all rfl
  have hchars : (Haystack.ofString "1 KiLo").chars.map CaseFold.fold =
      (Haystack.ofString "1 \u212AIlO").chars.map CaseFold.fold := by decide +kernel
  exact ⟨re, _, _, hbuild, hpattern, rfl, rfl, by decide +kernel, hchars,
    find_of_fold_eq hbuild hpattern hchars⟩

end Regex

end LinearRegex
