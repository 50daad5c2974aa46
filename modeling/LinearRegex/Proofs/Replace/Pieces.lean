import LinearRegex.Proofs.Replace.References
import LinearRegex.Replace.Replacer

/-!
# The pieces of a template

The pieces of a template cover it from left to right and nothing is lost: plain text up to the next
dollar sign, two dollar signs that stand for one, a reference, or a dollar sign alone. Each piece
begins where the one before it ends, so that the offset of a reference is the place of its dollar
sign. A template is refused if one of its references is to a group that there is not, and the first
such reference is blamed.

Main statements: `Template.tiles_iff` for the pieces, and `Regex.checkTemplate_tiles`.
-/

namespace LinearRegex

open Utf8

theorem Utf8.append_inj_of_byteLength {cs cs' ds ds' : List Char} (h : cs ++ ds = cs' ++ ds')
    (hlength : byteLength cs = byteLength cs') : cs = cs' ∧ ds = ds' := by
  refine ⟨?_, ?_⟩
  · rw [← takeBytes_append cs ds, h, hlength, takeBytes_append]
  · rw [← dropBytes_append cs ds, h, hlength, dropBytes_append]

theorem GroupRef.scan?_dollar (cs : List Char) : GroupRef.scan? ('$' :: cs) = none := rfl

/-! ## Tilings -/

namespace Template

/-- What a piece at an offset covers, in front of the rest of the template. -/
inductive Covers (o : Nat) : List Char → List Char → Piece → Prop
  /-- Text covers itself, and goes on up to the next dollar sign. -/
  | plain {text rest : List Char} (hne : text ≠ []) (htext : '$' ∉ text)
    (hrest : ∀ c ∈ rest.head?, c = '$') : Covers o text rest (.literal (String.ofList text))
  /-- Two dollar signs stand for one. -/
  | doubled (rest : List Char) : Covers o ['$', '$'] rest (.literal "$")
  /-- A reference covers as many bytes as it takes. -/
  | ref {text rest : List Char} {r : GroupRef.Scanned}
    (h : GroupRef.parse? (String.ofList ('$' :: (text ++ rest))) = some r)
    (hlength : byteLength ('$' :: text) = r.length) : Covers o ('$' :: text) rest (.ref o r.group)
  /-- A dollar sign that begins no reference stands for itself. -/
  | lone {rest : List Char} (hrest : rest.head? ≠ some '$')
    (h : GroupRef.parse? (String.ofList ('$' :: rest)) = none) :
    Covers o ['$'] rest (.literal "$")

/-- Pieces that cover a template from an offset on, one after the other and up to its end. -/
inductive Tiles : Nat → List Char → List Piece → Prop
  | done (o : Nat) : Tiles o [] []
  | piece {o : Nat} {text rest : List Char} {p : Piece} {ps : List Piece} (h : Covers o text rest p)
    (more : Tiles (o + byteLength text) rest ps) : Tiles o (text ++ rest) (p :: ps)

variable {o : Nat} {cs text rest : List Char} {p : Piece} {ps : List Piece}

theorem Covers.ne_nil (h : Covers o text rest p) : text ≠ [] := by
  cases h with
  | plain hne _ _ => exact hne
  | _ => exact List.cons_ne_nil _ _

theorem piecesFrom_nil (o : Nat) : piecesFrom o [] = [] := by
  rw [piecesFrom]
  rfl

/-- The pieces of what is left of a template from a dollar sign on, or at its end. -/
def piecesAt (o : Nat) : List Char → List Piece
  | [] => []
  | _ :: '$' :: rest => .literal "$" :: piecesFrom (o + 2) rest
  | _ :: rest =>
    match GroupRef.scan? rest with
    | some r => .ref o r.group :: piecesFrom (o + r.length) r.rest
    | none => .literal "$" :: piecesFrom (o + 1) rest

theorem piecesFrom_eq (o : Nat) (cs : List Char) :
    piecesFrom o cs = literal? (cs.takeWhile (· != '$')) ++
      piecesAt (o + byteLength (cs.takeWhile (· != '$'))) (cs.dropWhile (· != '$')) := by
  rw [piecesFrom]
  split
  · next hdrop =>
    rw [hdrop, piecesAt, List.append_nil]
  · next hdrop =>
    rw [hdrop, piecesAt]
  · next hne hdrop =>
    rw [hdrop, piecesAt]
    · split
      · next hscan => rw [hscan]
      · next hscan => rw [hscan]
    · intro rest h
      exact hne rest h

/-- Plain text up to a dollar sign or to the end is a piece, unless it is empty. -/
theorem piecesFrom_plain (htext : '$' ∉ text) (hrest : ∀ c ∈ rest.head?, c = '$') (o : Nat) :
    piecesFrom o (text ++ rest) = literal? text ++ piecesAt (o + byteLength text) rest := by
  obtain ⟨htake, hdrop⟩ := GroupRef.takeWhile_ne_append htext hrest
  rw [piecesFrom_eq, htake, hdrop]

theorem piecesFrom_of_head (hcs : ∀ c ∈ cs.head?, c = '$') (o : Nat) :
    piecesFrom o cs = piecesAt o cs := piecesFrom_plain List.not_mem_nil hcs o

theorem piecesFrom_dollar (o : Nat) (cs : List Char) :
    piecesFrom o ('$' :: cs) = piecesAt o ('$' :: cs) := piecesFrom_of_head (by simp) o

theorem piecesAt_cons (hcs : cs.head? ≠ some '$') (o : Nat) :
    piecesAt o ('$' :: cs) = match GroupRef.scan? cs with
      | some r => .ref o r.group :: piecesFrom (o + r.length) r.rest
      | none => .literal "$" :: piecesFrom (o + 1) cs := by
  rw [piecesAt]
  rintro rest rfl
  simp at hcs

/-! ## The pieces tile the template -/

/-- **What a piece covers gives the piece**, and what is left gives the others. -/
theorem piecesFrom_of_covers (h : Covers o text rest p) :
    piecesFrom o (text ++ rest) = p :: piecesFrom (o + byteLength text) rest := by
  cases h with
  | plain hne htext hrest =>
    rw [piecesFrom_plain htext hrest, piecesFrom_of_head hrest, literal?,
      if_neg (by simpa using hne)]
    rfl
  | doubled => exact piecesFrom_dollar o _
  | @ref text rest r h hlength =>
    rw [GroupRef.parse?_dollar] at h
    obtain ⟨text', heq, -, hlength'⟩ := GroupRef.exists_spelled_of_scan? h
    have hbytes : byteLength text = byteLength text' := by
      rw [hlength', byteLength_cons, byteLength_cons] at hlength
      omega
    obtain ⟨-, hrest⟩ := append_inj_of_byteLength heq hbytes
    have hhead : (text ++ rest).head? ≠ some '$' := by
      intro hhead
      obtain ⟨cs, hcs⟩ := List.head?_eq_some_iff.mp hhead
      rw [hcs, GroupRef.scan?_dollar] at h
      simp at h
    rw [List.cons_append, piecesFrom_dollar, piecesAt_cons hhead, h, hlength, hrest]
  | lone hrest h =>
    rw [GroupRef.parse?_dollar] at h
    rw [List.singleton_append, piecesFrom_dollar, piecesAt_cons hrest, h]
    rfl

/-- Something covers the beginning of any template. -/
theorem exists_covers (o : Nat) (hcs : cs ≠ []) :
    ∃ text rest p, cs = text ++ rest ∧ Covers o text rest p := by
  by_cases hplain : cs.takeWhile (· != '$') = []
  · cases cs with
    | nil => exact absurd rfl hcs
    | cons c cs =>
      obtain rfl : c = '$' := by
        rw [List.takeWhile_cons] at hplain
        by_contra hc
        simp [hc] at hplain
      by_cases hhead : cs.head? = some '$'
      · obtain ⟨rest, rfl⟩ := List.head?_eq_some_iff.mp hhead
        exact ⟨['$', '$'], rest, _, rfl, .doubled rest⟩
      · cases hscan : GroupRef.scan? cs with
        | none => exact ⟨['$'], cs, _, rfl, .lone hhead ((GroupRef.parse?_dollar cs).trans hscan)⟩
        | some r =>
          obtain ⟨text, rfl, -, hlength⟩ := GroupRef.exists_spelled_of_scan? hscan
          exact ⟨'$' :: text, r.rest, _, rfl,
            .ref ((GroupRef.parse?_dollar _).trans hscan) hlength.symm⟩
  · refine ⟨_, _, _, List.takeWhile_append_dropWhile.symm, .plain hplain ?_ ?_⟩
    · intro hmem
      have := List.mem_takeWhile_imp hmem
      simp at this
    · intro c hc
      obtain ⟨rest, hdrop⟩ := List.head?_eq_some_iff.mp hc
      have hne : cs.dropWhile (· != '$') ≠ [] := by rw [hdrop]; exact List.cons_ne_nil _ _
      have hhead := List.head_dropWhile_not (· != '$') hne
      simpa only [hdrop, List.head_cons, bne_eq_false_iff_eq] using hhead

theorem tiles_piecesFrom (o : Nat) (cs : List Char) : Tiles o cs (piecesFrom o cs) := by
  -- What is left is shorter by what the first piece covers.
  induction hn : cs.length using Nat.strong_induction_on generalizing o cs with
  | _ n ih =>
    by_cases hcs : cs = []
    · subst hcs
      rw [piecesFrom_nil]
      exact .done o
    · obtain ⟨text, rest, p, rfl, h⟩ := exists_covers o hcs
      rw [piecesFrom_of_covers h]
      have hpos := List.length_pos_iff.mpr h.ne_nil
      rw [List.length_append] at hn
      exact .piece h (ih rest.length (by omega) _ rest rfl)

/-- **The pieces are those that tile the template.** -/
theorem tiles_iff : Tiles o cs ps ↔ ps = piecesFrom o cs := by
  constructor
  · intro h
    induction h with
    | done o => exact (piecesFrom_nil o).symm
    | piece h _ ih => rw [piecesFrom_of_covers h, ih]
  · rintro rfl
    exact tiles_piecesFrom o cs

/-- Where the pieces are cut, the template is cut between two characters. -/
theorem Tiles.exists_cut {before after : List Piece} (h : Tiles o cs (before ++ after)) :
    ∃ passed rest, cs = passed ++ rest ∧ Tiles (o + byteLength passed) rest after := by
  induction before generalizing o cs with
  | nil => exact ⟨[], cs, rfl, h⟩
  | cons p before ih =>
    cases h with
    | @piece _ text _ _ _ _ more =>
      obtain ⟨passed, rest, rfl, hafter⟩ := ih more
      refine ⟨text ++ passed, rest, (List.append_assoc _ _ _).symm, ?_⟩
      rw [byteLength_append, ← Nat.add_assoc]
      exact hafter

end Template

/-! ## Checking -/

namespace Regex

variable {re : Regex} {group : GroupRef}

/-- Whether there is the group that a reference is to. -/
def HasGroup (re : Regex) : GroupRef → Prop
  | .number n => n < re.groupCount
  | .named name => some name ∈ re.groupNames

theorem knows_iff : re.knows group = true ↔ re.HasGroup group := by
  cases group with
  | number n => exact decide_eq_true_iff
  | named name =>
    show (re.groupNames.findIdx? (· == some name)).isSome = true ↔ some name ∈ re.groupNames
    rw [Array.findIdx?_isSome, Array.any_eq_true']
    simp

/-- What is wrong with a piece of a template, if anything is. -/
def fault? (re : Regex) : Template.Piece → Option TemplateError
  | .literal _ => none
  | .ref offset group => if re.knows group then none else some ⟨group, offset⟩

theorem fault?_ref (h : ¬ re.HasGroup group) (o : Nat) :
    re.fault? (.ref o group) = some ⟨group, o⟩ := if_neg (mt knows_iff.mp h)

theorem fault?_eq_none_iff {p : Template.Piece} :
    re.fault? p = none ↔ ∀ o group, p = .ref o group → re.HasGroup group := by
  cases p with
  | literal text => simp [fault?]
  | ref o group => simp [fault?, ← knows_iff]

theorem checkTemplate_eq (re : Regex) (template : String) :
    re.checkTemplate template = match (Template.pieces template).findSome? re.fault? with
      | some e => .error (.template e)
      | none => .ok () := rfl

theorem forall_fault?_eq_none_iff {ps : List Template.Piece} :
    (∀ p ∈ ps, re.fault? p = none) ↔ ∀ o group, .ref o group ∈ ps → re.HasGroup group := by
  constructor
  · intro h o group hmem
    exact fault?_eq_none_iff.mp (h _ hmem) o group rfl
  · intro h p hp
    refine fault?_eq_none_iff.mpr ?_
    rintro o group rfl
    exact h o group hp

theorem checkTemplate_eq_ok_iff {template : String} : re.checkTemplate template = .ok () ↔
    ∀ o group, .ref o group ∈ Template.pieces template → re.HasGroup group := by
  rw [checkTemplate_eq, ← forall_fault?_eq_none_iff, ← List.findSome?_eq_none_iff]
  split
  · next hfault => simp [hfault]
  · next hfault => simp [hfault]

/-- The first reference to a group that there is not is blamed. -/
theorem checkTemplate_eq_error_iff {template : String} {e : Error} :
    re.checkTemplate template = .error e ↔ ∃ before o group after,
      Template.pieces template = before ++ .ref o group :: after ∧
      (∀ o' group', .ref o' group' ∈ before → re.HasGroup group') ∧ ¬ re.HasGroup group ∧
      e = .template ⟨group, o⟩ := by
  rw [checkTemplate_eq]
  constructor
  · intro h
    split at h
    · next e' hfault =>
      obtain rfl := Except.error.inj h
      obtain ⟨before, p, after, hpieces, hp, hbefore⟩ := List.findSome?_eq_some_iff.mp hfault
      cases p with
      | literal text => simp [fault?] at hp
      | ref o group =>
        by_cases hgroup : re.HasGroup group
        · rw [fault?_eq_none_iff.mpr (by rintro o' group' heq; cases heq; exact hgroup)] at hp
          simp at hp
        · obtain rfl := Option.some.inj ((fault?_ref hgroup o).symm.trans hp)
          exact ⟨before, o, group, after, hpieces, forall_fault?_eq_none_iff.mp hbefore, hgroup,
            rfl⟩
    · simp at h
  · rintro ⟨before, o, group, after, hpieces, hbefore, hgroup, rfl⟩
    have hfault : (Template.pieces template).findSome? re.fault? = some ⟨group, o⟩ :=
      List.findSome?_eq_some_iff.mpr
        ⟨before, _, after, hpieces, fault?_ref hgroup o, forall_fault?_eq_none_iff.mpr hbefore⟩
    rw [hfault]

/-- **Templates are cut without loss, and checked exactly.** The pieces are those that tile the
template, and wherever they are cut the template is cut between two characters. A template is
accepted just when all groups are there that its references are to; otherwise the first reference to
a group that there is not is blamed, at its offset. -/
theorem checkTemplate_tiles (template : String) :
    (∀ ps, Template.Tiles 0 template.toList ps ↔ ps = Template.pieces template) ∧
    (∀ before after, Template.pieces template = before ++ after → ∃ passed rest,
      template.toList = passed ++ rest ∧ Template.Tiles (byteLength passed) rest after) ∧
    ∀ re : Regex,
      (re.checkTemplate template = .ok () ↔
        ∀ o group, .ref o group ∈ Template.pieces template → re.HasGroup group) ∧
      ∀ e, re.checkTemplate template = .error e ↔ ∃ before o group after,
        Template.pieces template = before ++ .ref o group :: after ∧
        (∀ o' group', .ref o' group' ∈ before → re.HasGroup group') ∧ ¬ re.HasGroup group ∧
        e = .template ⟨group, o⟩ := by
  refine ⟨fun ps => Template.tiles_iff, fun before after h => ?_, fun re => ?_⟩
  · obtain ⟨passed, rest, hcut, hafter⟩ := (Template.tiles_iff.mpr h.symm).exists_cut
    exact ⟨passed, rest, hcut, by rwa [Nat.zero_add] at hafter⟩
  · exact ⟨checkTemplate_eq_ok_iff, fun e => checkTemplate_eq_error_iff⟩

/-- A brace that is found behind another dollar sign and a character of two bytes. -/
theorem checkTemplate_tiles_brace : ∃ re, build "(?<y>.)" = .ok re ∧
    Template.pieces "é$$$\x7b$é\x7d$y$1" =
      [.literal "é", .literal "$", .ref 4 (.named "$é"), .ref 10 (.named "y"),
        .ref 12 (.number 1)] ∧
    Template.Tiles 0 "é$$$\x7b$é\x7d$y$1".toList
      [.literal "é", .literal "$", .ref 4 (.named "$é"), .ref 10 (.named "y"),
        .ref 12 (.number 1)] ∧
    re.checkTemplate "é$$$\x7b$é\x7d$y$1" = .error (.template ⟨.named "$é", 4⟩) := by
  obtain ⟨re, hbuild, hnames⟩ : ∃ re, build "(?<y>.)" = .ok re ∧
      re.groupNames = #[none, some "y"] := by
    with_unfolding_all exact ⟨_, rfl, rfl⟩
  have hpieces : Template.pieces "é$$$\x7b$é\x7d$y$1" =
      [.literal "é", .literal "$", .ref 4 (.named "$é"), .ref 10 (.named "y"),
        .ref 12 (.number 1)] := by
    with_unfolding_all decide +kernel
  obtain ⟨htiles, -, hcheck⟩ := checkTemplate_tiles "é$$$\x7b$é\x7d$y$1"
  refine ⟨re, hbuild, hpieces, (htiles _).mpr hpieces.symm, ((hcheck re).2 _).mpr ?_⟩
  refine ⟨[.literal "é", .literal "$"], 4, .named "$é", _, hpieces, by simp, ?_, rfl⟩
  simp [HasGroup, hnames]

end Regex

end LinearRegex
