import LinearRegex.Proofs.Replace.Pieces
import LinearRegex.Proofs.Replace.Substitution

/-!
# Templates that stand for a text

A text with each dollar sign doubled is a template that stands for the text, whatever surrounds it.
The pieces of a template are taken character by character: a character other than a dollar sign
goes in front of what the rest of the template gives, and two dollar signs put one there.

Main statement: `Regex.replaceAtMost_escape`.
-/

namespace LinearRegex

open Utf8

/-! ## Doubled dollar signs -/

namespace Template

/-- Characters with each dollar sign doubled. -/
def escapeChars (cs : List Char) : List Char :=
  cs.flatMap fun c => if c = '$' then ['$', '$'] else [c]

/-- A text with each dollar sign doubled. -/
def escape (text : String) : String := String.ofList (escapeChars text.toList)

variable {c : Char}

theorem toList_escape (text : String) : (escape text).toList = escapeChars text.toList :=
  String.toList_ofList

theorem escapeChars_dollar (cs : List Char) :
    escapeChars ('$' :: cs) = '$' :: '$' :: escapeChars cs := rfl

theorem escapeChars_cons (hc : c ≠ '$') (cs : List Char) :
    escapeChars (c :: cs) = c :: escapeChars cs := by
  unfold escapeChars
  rw [List.flatMap_cons, if_neg hc]
  rfl

/-- A character other than a dollar sign belongs to the text that a template begins with. -/
theorem exists_piecesFrom_cons (hc : c ≠ '$') (o : Nat) (cs : List Char) : ∃ text more,
    piecesFrom (o + c.utf8Size) cs = literal? text ++ more ∧
      piecesFrom o (c :: cs) = literal? (c :: text) ++ more := by
  have htake : (c :: cs).takeWhile (· != '$') = c :: cs.takeWhile (· != '$') :=
    List.takeWhile_cons_of_pos (bne_iff_ne.mpr hc)
  have hdrop : (c :: cs).dropWhile (· != '$') = cs.dropWhile (· != '$') :=
    List.dropWhile_cons_of_pos (bne_iff_ne.mpr hc)
  refine ⟨cs.takeWhile (· != '$'), _, piecesFrom_eq _ cs, ?_⟩
  rw [piecesFrom_eq, htake, hdrop, byteLength_cons, Nat.add_assoc]

theorem piecesFrom_doubled (o : Nat) (cs : List Char) :
    piecesFrom o ('$' :: '$' :: cs) = .literal "$" :: piecesFrom (o + 2) cs :=
  piecesFrom_of_covers (.doubled cs)

/-- The reference to group 0 in braces, whatever follows. -/
theorem piecesFrom_whole (o : Nat) (cs : List Char) :
    piecesFrom o ("$\x7b0\x7d".toList ++ cs) = .ref o (.number 0) :: piecesFrom (o + 4) cs := by
  have hscan : GroupRef.parse? (String.ofList ('$' :: (['\x7b', '0', '\x7d'] ++ cs))) =
      some ⟨['0'], 4, cs⟩ := by
    rw [GroupRef.parse?_dollar]
    rfl
  exact piecesFrom_of_covers (.ref hscan rfl)

theorem ref_notMem_literal? (text : List Char) (o : Nat) (group : GroupRef) :
    .ref o group ∉ literal? text := by
  unfold literal?
  split <;> simp

/-- A text with each dollar sign doubled refers to nothing. -/
theorem ref_notMem_piecesFrom_escapeChars (cs : List Char) (start o : Nat) (group : GroupRef) :
    .ref o group ∉ piecesFrom start (escapeChars cs) := by
  induction cs generalizing start with
  | nil =>
    rw [escapeChars, List.flatMap_nil, piecesFrom_nil]
    exact List.not_mem_nil
  | cons c cs ih =>
    by_cases hc : c = '$'
    · subst hc
      rw [escapeChars_dollar, piecesFrom_doubled, List.mem_cons, not_or]
      exact ⟨by simp, ih _⟩
    · rw [escapeChars_cons hc]
      obtain ⟨text, more, hrest, hpieces⟩ := exists_piecesFrom_cons hc start (escapeChars cs)
      have hmore := ih (start + c.utf8Size)
      rw [hrest, List.mem_append, not_or] at hmore
      rw [hpieces, List.mem_append, not_or]
      exact ⟨ref_notMem_literal? _ o group, hmore.2⟩

end Template

/-! ## What a doubled text stands for -/

namespace Captures

open Template

variable {c : Char} (caps : Captures)

/-- What some pieces of a template stand for, one after the other. -/
def piecesText (ps : List Piece) : List Char := ps.flatMap fun p => (caps.pieceText p).toList

theorem toList_expand (template : String) :
    (caps.expand template).toList = caps.piecesText (piecesFrom 0 template.toList) := by
  unfold expand piecesText pieces
  rw [String.toList_join, List.flatMap_map]

theorem piecesText_cons (p : Piece) (ps : List Piece) :
    caps.piecesText (p :: ps) = (caps.pieceText p).toList ++ caps.piecesText ps :=
  List.flatMap_cons

theorem piecesText_literal? (text : List Char) (ps : List Piece) :
    caps.piecesText (literal? text ++ ps) = text ++ caps.piecesText ps := by
  unfold literal?
  split
  · next h =>
    rw [List.isEmpty_iff.mp h]
    rfl
  · rw [List.singleton_append, piecesText_cons, pieceText, String.toList_ofList]

theorem toList_pieceText_dollar : (caps.pieceText (.literal "$")).toList = ['$'] := by
  simp [pieceText]

/-- **What is doubled stands for itself**, and what follows it stands for what it does. -/
theorem piecesText_escapeChars (cs rest : List Char) (o : Nat) :
    caps.piecesText (piecesFrom o (escapeChars cs ++ rest)) =
      cs ++ caps.piecesText (piecesFrom (o + byteLength (escapeChars cs)) rest) := by
  induction cs generalizing o with
  | nil => rfl
  | cons c cs ih =>
    by_cases hc : c = '$'
    · subst hc
      have hdollar : '$'.utf8Size = 1 := by decide
      have hoffset : o + 2 + byteLength (escapeChars cs) =
          o + byteLength (escapeChars ('$' :: cs)) := by
        rw [escapeChars_dollar, byteLength_cons, byteLength_cons, hdollar]
        omega
      rw [← hoffset, escapeChars_dollar, List.cons_append, List.cons_append, piecesFrom_doubled,
        piecesText_cons, ih, toList_pieceText_dollar]
      rfl
    · obtain ⟨text, more, hrest, hpieces⟩ := exists_piecesFrom_cons hc o (escapeChars cs ++ rest)
      rw [escapeChars_cons hc, List.cons_append, hpieces, piecesText_literal?, List.cons_append,
        ← piecesText_literal?, ← hrest, ih, byteLength_cons, Nat.add_assoc]
      rfl

theorem expand_escape (text : String) : caps.expand (escape text) = text := by
  rw [← String.toList_inj, toList_expand, toList_escape, ← List.append_nil (escapeChars _),
    piecesText_escapeChars, piecesFrom_nil]
  exact List.append_nil _

/-- What surrounds a reference has no part in it. -/
theorem expand_escape_whole (before after : String) :
    caps.expand (escape before ++ "$\x7b0\x7d" ++ escape after) =
      before ++ ((caps.get? 0).map Match.text).getD "" ++ after := by
  rw [← refText_number, ← String.toList_inj, toList_expand, String.toList_append,
    String.toList_append, toList_escape, toList_escape, List.append_assoc, piecesText_escapeChars,
    piecesFrom_whole, piecesText_cons, ← List.append_nil (escapeChars after.toList),
    piecesText_escapeChars, piecesFrom_nil, String.toList_append, String.toList_append,
    List.append_assoc]
  exact congrArg _ (congrArg _ (List.append_nil _))

end Captures

namespace Replacer

open Template

theorem appendsAlways_escape (text : String) : (template (escape text)).AppendsAlways text := by
  intro s caps made
  show made ++ caps.expand (escape text) = made ++ text
  rw [caps.expand_escape]

end Replacer

namespace Regex

open Template

variable {re : Regex} {pattern : String} {options : Options}

theorem checkTemplate_escape (re : Regex) (text : String) :
    re.checkTemplate (escape text) = .ok () := by
  refine checkTemplate_eq_ok_iff.mpr fun o group hmem => ?_
  rw [pieces, toList_escape] at hmem
  exact absurd hmem (ref_notMem_piecesFrom_escapeChars _ 0 o group)

/-- **Doubling the dollar signs of a text makes a template that stands for it**: for any captures it
expands to the text, and it replaces matches as the text does when it is put in as it is. It is
accepted as a template, since it refers to no group. Two such templates around a reference to the
match leave the reference what it is. -/
theorem replaceAtMost_escape (h : build pattern options = .ok re) (text : String) :
    (∀ caps : Captures, caps.expand (escape text) = text) ∧
    (∀ hay limit, re.replaceAtMost hay limit (.template (escape text)) =
      re.replaceAtMost hay limit (.verbatim text)) ∧
    re.checkTemplate (escape text) = .ok () ∧
    ∀ (caps : Captures) before after,
      caps.expand (escape before ++ "$\x7b0\x7d" ++ escape after) =
        before ++ ((caps.get? 0).map Match.text).getD "" ++ after := by
  refine ⟨fun caps => caps.expand_escape text, fun hay limit => ?_, checkTemplate_escape re text,
    fun caps => caps.expand_escape_whole⟩
  obtain ⟨tree, exit, hc, hw, hgroups⟩ := exists_compiled_of_build h
  obtain ⟨l, hl⟩ := hc.exists_remaining hw hay.start_mem_cursors none
  -- Each call on either one would put in the text.
  rw [replaceAtMost_of_appendsAlways hl hgroups limit (Replacer.appendsAlways_escape text)
    fun _ => Replacer.appendsAlways_of_fixed?_template]
  refine (replaceAtMost_of_appendsAlways hl hgroups limit (Replacer.appendsAlways_verbatim text)
    fun t ht => ?_).symm
  obtain rfl := Option.some.inj ht
  exact Replacer.appendsAlways_verbatim text

/-- Dollar signs in front of what would be a reference. -/
theorem replaceAtMost_escape_dollars : ∃ re, build "(?<n>a)" = .ok re ∧
    Template.escape "$$$1$\x7bn\x7d" = "$$$$$$1$$\x7bn\x7d" ∧
    re.replaceAtMost (.ofString "béa") 0 (.template "$$$$$$1$$\x7bn\x7d") =
      some "bé$$$1$\x7bn\x7d" ∧
    re.checkTemplate "$$$$$$1$$\x7bn\x7d" = .ok () := by
  obtain ⟨re, hbuild, hreplace⟩ : ∃ re, build "(?<n>a)" = .ok re ∧
      re.replaceAtMost (.ofString "béa") 0 (.verbatim "$$$1$\x7bn\x7d") =
        some "bé$$$1$\x7bn\x7d" := by
    with_unfolding_all exact ⟨_, rfl, by decide +kernel⟩
  have hescape : Template.escape "$$$1$\x7bn\x7d" = "$$$$$$1$$\x7bn\x7d" := by
    with_unfolding_all decide +kernel
  obtain ⟨-, hsame, hcheck, -⟩ := replaceAtMost_escape hbuild "$$$1$\x7bn\x7d"
  rw [hescape] at hsame hcheck
  exact ⟨re, hbuild, hescape, (hsame _ 0).trans hreplace, hcheck⟩

end Regex

end LinearRegex
