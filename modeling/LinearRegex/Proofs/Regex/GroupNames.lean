import LinearRegex.Proofs.Pattern.Numbering
import LinearRegex.Proofs.Regex.Captures

/-!
# Asking for groups by name

An expression keeps the table of names of its pattern, and so do the captures that its searches
give. A group is found by its name under its number.

Main statements: `Regex.groups_numbered`, and `Regex.groupIndex?_eq_some_iff` for the table.
-/

namespace LinearRegex

open Pattern

theorem indexOfName?_eq_some_iff {groups : List (Option String × Nat)}
    {names : Array (Option String)} (h : Listed groups names) {name : String} {i : Nat} :
    indexOfName? names name = some i ↔ (some name, i) ∈ groups := by
  have hfind : indexOfName? names name = some i ↔ names[i]? = some (some name) := by
    unfold indexOfName?
    rw [Array.findIdx?_eq_some_iff_getElem, Array.getElem?_eq_some_iff]
    constructor
    · rintro ⟨hi, hname, -⟩
      exact ⟨hi, by simpa using hname⟩
    · rintro ⟨hi, hname⟩
      refine ⟨hi, by simpa using hname, fun j hj hj' => ?_⟩
      have heq : j = i := h.eq_of_getElem? (s := name)
        (Array.getElem?_eq_some_iff.mpr ⟨_, by simpa using hj'⟩)
        (Array.getElem?_eq_some_iff.mpr ⟨hi, hname⟩)
      omega
  rw [hfind, h.mem_iff]
  refine ⟨fun hname => ⟨?_, hname⟩, And.right⟩
  refine Nat.pos_of_ne_zero fun hi => ?_
  rw [hi, h.whole] at hname
  simp at hname

/-- What captures have under a name is what they have under the number that an expression gives for
it, and nothing if it gives none. -/
def Captures.NamesAgree (caps : Captures) (re : Regex) : Prop :=
  ∀ name, (∀ i, re.groupIndex? name = some i → caps.getNamed? name = caps.get? i) ∧
    (re.groupIndex? name = none → caps.getNamed? name = none)

theorem Captures.namesAgree {caps : Captures} {re : Regex} (h : caps.groupNames = re.groupNames) :
    caps.NamesAgree re := by
  intro name
  unfold getNamed? Regex.groupIndex?
  rw [h]
  refine ⟨fun i hi => ?_, fun hnone => ?_⟩
  · rw [hi]
    rfl
  · rw [hnone]
    rfl

namespace Regex

variable {re : Regex}

theorem groupNames_of_search {request : Request} {cache cache' : Cache} {caps : Captures}
    (h : re.search request cache = .ok (.ok (some caps), cache')) :
    caps.groupNames = re.groupNames := by
  obtain ⟨-, -, -, rfl⟩ := exists_slots_of_search h
  rfl

theorem groupNames_of_capturesFrom {hay : Haystack} {start : Cursor} {caps : Captures}
    (h : re.capturesFrom hay start = some caps) : caps.groupNames = re.groupNames := by
  obtain ⟨-, -, rfl⟩ := exists_slots_of_capturesFrom h
  rfl

theorem listed_of_build {source : String} {flags : Flags} {pattern : Pattern} {sizeLimit : Nat}
    (h : parse source flags = .ok pattern) (hre : build source { flags, sizeLimit } = .ok re) :
    Listed pattern.node.captured re.groupNames := by
  obtain ⟨tree, hparse, hcompile⟩ := exists_parse_of_build hre
  obtain rfl := Except.ok.inj (h.symm.trans hparse)
  obtain ⟨exit, hc, -⟩ := Program.compile_layout hcompile
  unfold groupNames
  rw [hc.groupNames]
  exact listed_of_parse h

/-- **Groups are numbered and named consistently.** The groups of a pattern that is accepted are
numbered 1, 2, … as they stand in the tree. The table of names has an entry for the whole match,
which has no name, and one for each group with the name it has in the tree; there are at most 65536
entries. No name occurs twice, and each is an identifier. In the expression that the pattern is
compiled to, and in what its searches give, a group is found by its name under its number. -/
theorem groups_numbered {source : String} {flags : Flags} {pattern : Pattern}
    (h : parse source flags = .ok pattern) :
    pattern.node.captured.map Prod.snd = List.range' 1 pattern.node.captured.length ∧
    pattern.groupNames.size = pattern.node.captured.length + 1 ∧
    pattern.groupNames.size ≤ 65536 ∧
    pattern.groupNames[0]? = some none ∧
    (∀ name i, (name, i) ∈ pattern.node.captured → pattern.groupNames[i]? = some name) ∧
    (∀ (name : String) (i j : Nat), pattern.groupNames[i]? = some (some name) →
      pattern.groupNames[j]? = some (some name) → i = j) ∧
    (∀ name, some name ∈ pattern.groupNames → IsIdentifier name) ∧
    ∀ sizeLimit re, build source { flags, sizeLimit } = .ok re →
      (∀ name i, re.groupIndex? name = some i ↔ (some name, i) ∈ pattern.node.captured) ∧
      (∀ request cache caps cache',
        re.search request cache = .ok (.ok (some caps), cache') →
          caps.NamesAgree re) ∧
      ∀ hay start caps, re.capturesFrom hay start = some caps → caps.NamesAgree re := by
  have hlisted := listed_of_parse h
  refine ⟨hlisted.numbers, hlisted.size_eq, hlisted.size_le, hlisted.whole,
    fun name i hmem => (hlisted.mem_iff.mp hmem).2, fun name i j => hlisted.eq_of_getElem?,
    hlisted.identifiers, fun sizeLimit re hre => ⟨fun name i => ?_, ?_, ?_⟩⟩
  · exact indexOfName?_eq_some_iff (listed_of_build h hre)
  · intro request cache caps cache' hcaps
    exact Captures.namesAgree (groupNames_of_search hcaps)
  · intro hay start caps hcaps
    exact Captures.namesAgree (groupNames_of_capturesFrom hcaps)

/-- Groups in groups and in branches, with names and without. -/
theorem groups_numbered_nested : ∃ pattern,
    parse "((a)(?:b)(?P<x>c))*|(?<y>d)" {} = .ok pattern ∧
      pattern.groupNames = #[none, none, none, some "x", some "y"] ∧
      pattern.node.captured = [(none, 1), (none, 2), (some "x", 3), (some "y", 4)] ∧
      pattern.node.captured.map Prod.snd = List.range' 1 pattern.node.captured.length ∧
      ∀ sizeLimit re, build "((a)(?:b)(?P<x>c))*|(?<y>d)" { flags := {}, sizeLimit } = .ok re →
        re.groupIndex? "y" = some 4 := by
  obtain ⟨pattern, hparse, hnames, hcaptured⟩ : ∃ pattern,
      parse "((a)(?:b)(?P<x>c))*|(?<y>d)" {} = .ok pattern ∧
        pattern.groupNames = #[none, none, none, some "x", some "y"] ∧
        pattern.node.captured = [(none, 1), (none, 2), (some "x", 3), (some "y", 4)] := by
    with_unfolding_all exact ⟨_, rfl, rfl, rfl⟩
  obtain ⟨hnumbers, -, -, -, -, -, -, hbuild⟩ := groups_numbered hparse
  refine ⟨pattern, hparse, hnames, hcaptured, hnumbers, fun sizeLimit re hre => ?_⟩
  rw [(hbuild sizeLimit re hre).1, hcaptured]
  simp

end Regex

end LinearRegex
