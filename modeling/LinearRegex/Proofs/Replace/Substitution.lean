import LinearRegex.Proofs.Regex.Split
import LinearRegex.Replace.Replacer
import Mathlib.Data.List.TakeWhile

/-!
# What replacing makes of a text

The matches that are replaced give way to what is put in their places, and all else stays as it is.
A replacer is called on one match after the other, in the state in which the call before has left
it, with the text that is made until there. Where a replacement is given for all matches, the bounds
of the matches are enough: they are the same stretches of the text, and the same is put in.

The relation `Replacing` says how a text is made. A stretch of the text is a pair of places, and the
lemmas on one round of copying are stated for stretches in order.

Main statement: `Regex.replaceAtMost_replaces`.
-/

namespace LinearRegex

/-- The first of some items, as many as a limit allows; a limit of 0 allows all. -/
def upTo {α : Type} (limit : Nat) (items : List α) : List α :=
  if limit = 0 then items else items.take limit

/-- How a replacer makes a text of the characters from an offset on, behind what is made of those
before. In front of each match they are kept. In the place of the match comes what the replacer
puts there when it is called on the captures with what is made until then. Behind the last match
they are kept as well. -/
inductive Replacing (rep : Replacer) :
    rep.State → Nat → List Char → List Captures → String → String → rep.State → Prop
  | nil (s : rep.State) (offset : Nat) (cs : List Char) (made : String) :
    Replacing rep s offset cs [] made (made ++ String.ofList cs) s
  | cons {s s' last : rep.State} {offset : Nat} {kept old cs : List Char} {caps : Captures}
    {span : Span} {more : List Captures} {made text result : String}
    (found : caps.whole? = some span) (start : offset + Utf8.byteLength kept = span.start)
    (stop : span.start + Utf8.byteLength old = span.stop)
    (call : rep.append s caps (made ++ String.ofList kept) =
      (made ++ String.ofList kept ++ text, s'))
    (rest : Replacing rep s' span.stop cs more (made ++ String.ofList kept ++ text) result last) :
    Replacing rep s offset (kept ++ old ++ cs) (caps :: more) made result last

/-! ## Limits -/

section Limits

variable {α β : Type} {limit : Nat} {items : List α}

theorem upTo_map (f : α → β) (limit : Nat) (items : List α) :
    upTo limit (items.map f) = (upTo limit items).map f := by
  unfold upTo
  split
  · rfl
  · exact List.map_take.symm

theorem upTo_eq_nil_iff : upTo limit items = [] ↔ items = [] := by
  unfold upTo
  split
  · rfl
  · next h => simp [h]

theorem upTo_of_length_le (h : items.length ≤ limit) : upTo limit items = items := by
  unfold upTo
  split
  · rfl
  · exact List.take_of_length_le h

theorem forall₂_upTo {R : α → β → Prop} {others : List β} (h : List.Forall₂ R items others)
    (limit : Nat) : List.Forall₂ R (upTo limit items) (upTo limit others) := by
  unfold upTo
  split
  · exact h
  · exact List.forall₂_take limit h

/-- As many items are collected as a limit allows. -/
theorem Yields.collect_upTo {σ : Type} {next : σ → Option α × σ} {s : σ} {hay : Haystack}
    (h : Yields next s items) (hlength : items.length ≤ Matches.bound hay) (limit : Nat) :
    (collect next (Matches.count hay (Regex.limit? limit)) s []).1 = upTo limit items := by
  unfold upTo Regex.limit?
  split
  · exact h.collect_all hlength
  · rw [h.collect_eq, List.reverse_nil, List.nil_append, Matches.count, ← List.take_take,
      List.take_of_length_le hlength]

end Limits

/-! ## What templates stand for -/

theorem Template.piecesFrom_of_no_dollar {offset : Nat} {cs : List Char} (h : '$' ∉ cs) :
    piecesFrom offset cs = literal? cs := by
  have hall : ∀ c ∈ cs, (c != '$') = true := by
    intro c hc
    simp only [bne_iff_ne, ne_eq]
    rintro rfl
    exact h hc
  have hdrop : cs.dropWhile (· != '$') = [] := List.dropWhile_eq_nil_iff.mpr hall
  have htake : cs.takeWhile (· != '$') = cs := List.takeWhile_eq_self_iff.mpr hall
  rw [piecesFrom]
  split
  · rw [htake]
  · next heq => exact absurd (heq.symm.trans hdrop) (List.cons_ne_nil _ _)
  · next _ heq => exact absurd (heq.symm.trans hdrop) (List.cons_ne_nil _ _)

/-- **A template without a dollar sign stands for itself.** -/
theorem Captures.expand_of_no_dollar (caps : Captures) {template : String}
    (h : '$' ∉ template.toList) : caps.expand template = template := by
  unfold expand Template.pieces
  rw [Template.piecesFrom_of_no_dollar h, Template.literal?]
  split
  · next hempty =>
    rw [← String.toList_inj, List.isEmpty_iff.mp hempty]
    rfl
  · simp [pieceText, String.join]

namespace Captures

theorem refText_number (caps : Captures) (n : Nat) :
    caps.refText (.number n) = ((caps.get? n).map Match.text).getD "" := by
  unfold refText
  dsimp only
  split
  · next hget => rw [hget, Option.map_some, Option.getD_some]
  · next hget => rw [hget, Option.map_none, Option.getD_none]

/-- **A reference by number** stands for what the group matches, and for nothing if there is no such
group, as far as the number can be doubled. -/
theorem refText_of_lt {caps : Captures} (h : caps.slots.size = 2 * caps.size) {n : Nat}
    (hn : n < 2 ^ 63) :
    caps.refText (.number n) = (caps.groups[n]?.join.map Match.text).getD "" := by
  rw [refText_number, get?_eq_groups h, Nat.mod_eq_of_lt hn]

/-- Beyond that a number stands for the smaller one that it is taken for. -/
theorem refText_mod (caps : Captures) (n : Nat) :
    caps.refText (.number (n % 2 ^ 63)) = caps.refText (.number n) := by
  rw [refText_number, refText_number, get?_mod]

/-- What a piece of a template stands for in a build that looks out for overflow: it stops where the
number of a group cannot be doubled. -/
def pieceText? (caps : Captures) : Template.Piece → Option String
  | .ref _ (.number n) => if 2 * n < 2 ^ 64 then some (caps.refText (.number n)) else none
  | p => some (caps.pieceText p)

/-- A template with its references replaced, in a build that looks out for overflow. -/
def expand? (caps : Captures) (template : String) : Option String :=
  ((Template.pieces template).mapM caps.pieceText?).map String.join

theorem pieceText?_eq_some_iff {caps : Captures} {p : Template.Piece} {text : String} :
    caps.pieceText? p = some text ↔
      (∀ o n, p = .ref o (.number n) → n < 2 ^ 63) ∧ caps.pieceText p = text := by
  unfold pieceText?
  split
  · next o n =>
    constructor
    · intro h
      by_cases hn : 2 * n < 2 ^ 64
      · rw [if_pos hn] at h
        refine ⟨fun o' n' heq => ?_, Option.some.inj h⟩
        obtain ⟨-, hgroup⟩ := Template.Piece.ref.inj heq
        obtain rfl := GroupRef.number.inj hgroup
        omega
      · rw [if_neg hn] at h
        exact absurd h (Option.some_ne_none text).symm
    · rintro ⟨hall, rfl⟩
      have hn : n < 2 ^ 63 := hall o n rfl
      rw [if_pos (by omega)]
      rfl
  · next hp =>
    have hnumber : ∀ o n, p = .ref o (.number n) → n < 2 ^ 63 :=
      fun o n heq => absurd heq (hp o n)
    exact ⟨fun h => ⟨hnumber, Option.some.inj h⟩, fun h => congrArg some h.2⟩

theorem mapM_pieceText?_eq_some_iff {caps : Captures} {ps : List Template.Piece}
    {texts : List String} : ps.mapM caps.pieceText? = some texts ↔
      (∀ o n, .ref o (.number n) ∈ ps → n < 2 ^ 63) ∧ ps.map caps.pieceText = texts := by
  induction ps generalizing texts with
  | nil => simp
  | cons p ps ih =>
    rw [List.mapM_cons]
    simp only [Option.bind_eq_bind, Option.bind_eq_some_iff, Option.pure_def, Option.some.injEq,
      pieceText?_eq_some_iff, ih]
    constructor
    · rintro ⟨text, ⟨hp, rfl⟩, texts, ⟨hps, rfl⟩, rfl⟩
      refine ⟨fun o n hmem => ?_, rfl⟩
      rcases List.mem_cons.mp hmem with heq | hmem
      · exact hp o n heq.symm
      · exact hps o n hmem
    · rintro ⟨hall, rfl⟩
      have hp : ∀ o n, p = .ref o (.number n) → n < 2 ^ 63 :=
        fun o n heq => hall o n (List.mem_cons.mpr (.inl heq.symm))
      have hps : ∀ o n, .ref o (.number n) ∈ ps → n < 2 ^ 63 :=
        fun o n hmem => hall o n (List.mem_cons_of_mem p hmem)
      exact ⟨_, ⟨hp, rfl⟩, _, ⟨hps, rfl⟩, rfl⟩

/-- **It makes no difference whether overflow is looked out for**, as long as no reference has a
number from 2^63 on. -/
theorem expand?_eq_some_iff {caps : Captures} {template text : String} :
    caps.expand? template = some text ↔
      (∀ o n, .ref o (.number n) ∈ Template.pieces template → n < 2 ^ 63) ∧
        caps.expand template = text := by
  unfold expand? expand
  rw [Option.map_eq_some_iff]
  constructor
  · rintro ⟨texts, htexts, rfl⟩
    obtain ⟨hall, rfl⟩ := mapM_pieceText?_eq_some_iff.mp htexts
    exact ⟨hall, rfl⟩
  · rintro ⟨hall, rfl⟩
    exact ⟨_, mapM_pieceText?_eq_some_iff.mpr ⟨hall, rfl⟩, rfl⟩

/-- The reference to group 0 stands for the match. -/
theorem expand_whole {caps : Captures} {m : Match} (h : caps.get? 0 = some m) :
    caps.expand "$0" = m.text := by
  have hpieces : Template.pieces "$0" = [.ref 0 (.number 0)] := by
    with_unfolding_all decide +kernel
  unfold expand
  rw [hpieces, List.map_singleton, pieceText, refText_number, h]
  simp [String.join]

end Captures

/-! ## What calls put in -/

namespace Replacer

/-- What a replacer is to do: a call puts some text behind what is made so far, which it leaves as
it is. -/
def Appends (rep : Replacer) : Prop :=
  ∀ s caps made, ∃ text s', rep.append s caps made = (made ++ text, s')

/-- A call puts the same text behind what is made so far, whatever the match is. -/
def AppendsAlways (rep : Replacer) (text : String) : Prop :=
  ∀ s caps made, (rep.append s caps made).1 = made ++ text

theorem AppendsAlways.appends {rep : Replacer} {text : String} (h : rep.AppendsAlways text) :
    rep.Appends :=
  fun s caps made => ⟨text, (rep.append s caps made).2, Prod.ext (h s caps made) rfl⟩

theorem appends_template (text : String) : (template text).Appends :=
  fun s caps _ => ⟨caps.expand text, s, rfl⟩

theorem appends_closure {σ : Type} (s : σ) (f : σ → Captures → String × σ) :
    (closure s f).Appends :=
  fun s caps _ => ⟨(f s caps).1, (f s caps).2, rfl⟩

theorem appendsAlways_verbatim (text : String) : (verbatim text).AppendsAlways text :=
  fun _ _ _ => rfl

/-- **A template without a dollar sign is put in as it is.** -/
theorem appendsAlways_template {text : String} (h : '$' ∉ text.toList) :
    (template text).AppendsAlways text := by
  intro s caps made
  show made ++ caps.expand text = made ++ text
  rw [caps.expand_of_no_dollar h]

theorem fixed?_template_eq_some {text t : String} :
    (template text).fixed? = some t ↔ '$' ∉ text.toList ∧ text = t := by
  show (if text.toList.contains '$' then none else some text) = some t ↔ _
  by_cases h : '$' ∈ text.toList
  · simp [h]
  · simp [h]

/-- What a template gives for all matches is what each call would put in. -/
theorem appendsAlways_of_fixed?_template {text t : String} (h : (template text).fixed? = some t) :
    (template text).AppendsAlways t := by
  obtain ⟨hdollar, rfl⟩ := fixed?_template_eq_some.mp h
  exact appendsAlways_template hdollar

end Replacer

/-! ## One round after the other -/

section CopyAround

variable {α β σ τ : Type} {span? : α → Option Span} {put : σ → α → String → String × σ}

/-- The same is made of items with the same spans where the same is put in, whatever the states. -/
theorem copyAround_congr {span?' : β → Option Span} {put' : τ → β → String → String × τ}
    {items : List α} {items' : List β}
    (hspan : List.Forall₂ (fun x y => span? x = span?' y) items items')
    (hput : ∀ s x made t y, (put s x made).1 = (put' t y made).1) (offset : Nat) (cs : List Char)
    (made : String) (s : σ) (t : τ) :
    (copyAround span? put offset cs items made s).1 =
      (copyAround span?' put' offset cs items' made t).1 := by
  induction hspan generalizing offset cs made s t with
  | nil => rfl
  | @cons x y items items' hxy _ ih =>
    unfold copyAround
    rw [hxy]
    cases span?' y with
    | none => exact ih offset cs made s t
    | some span =>
      dsimp only
      rw [hput s x _ t y]
      exact ih _ _ _ _ _

end CopyAround

namespace Haystack

variable {hay : Haystack} {cur : Cursor} {l : List (Cursor × Cursor)}

theorem InOrder.upTo (h : InOrder cur l) (limit : Nat) : InOrder cur (upTo limit l) := by
  have htake : ∀ n, InOrder cur (l.take n) := by
    induction h with
    | nil cur => exact fun n => by rw [List.take_nil]; exact .nil cur
    | cons start_mem stop_mem _ ih =>
      intro n
      cases n with
      | zero => exact .nil _
      | succ n => exact .cons start_mem stop_mem (ih n)
  unfold LinearRegex.upTo
  split
  · exact h
  · exact htake limit

/-- **One round**: what lies in front of a stretch is copied, and something is put in its place. -/
theorem copyAround_cons {α σ : Type} {span? : α → Option Span}
    {put : σ → α → String → String × σ} (hcur : cur ∈ hay.cursors) {x : Cursor × Cursor}
    (hstart : x.1 ∈ cur.onward) (hstop : x.2 ∈ x.1.onward) {item : α}
    (hspan : span? item = some ⟨x.1.offset, x.2.offset⟩) (items : List α) (made : String) (s : σ) :
    copyAround span? put cur.offset cur.rest (item :: items) made s =
      copyAround span? put x.2.offset x.2.rest items
        (put s item (made ++ hay.slice cur.offset x.1.offset)).1
        (put s item (made ++ hay.slice cur.offset x.1.offset)).2 := by
  have hx := Cursor.mem_onward_trans hcur hstart
  have hkept := byteLength_slice hcur hstart
  have hall := byteLength_slice hcur (Cursor.mem_onward_trans hstart hstop)
  have hkeptLength : x.1.offset - cur.offset =
      Utf8.byteLength (hay.slice cur.offset x.1.offset).toList := by omega
  have hallLength : x.2.offset - cur.offset =
      Utf8.byteLength (hay.slice cur.offset x.2.offset).toList := by omega
  have htake : String.ofList (Utf8.takeBytes (x.1.offset - cur.offset) cur.rest) =
      hay.slice cur.offset x.1.offset := by
    rw [rest_eq_slice_append hcur hstart, hkeptLength, Utf8.takeBytes_append,
      String.ofList_toList]
  have hdrop : Utf8.dropBytes (x.2.offset - cur.offset) cur.rest = x.2.rest := by
    rw [rest_eq_slice_append hcur (Cursor.mem_onward_trans hstart hstop), hallLength,
      Utf8.dropBytes_append]
  rw [copyAround, hspan]
  dsimp only
  rw [htake, hdrop]

end Haystack

/-- The captures of matches between some places of a text. -/
def FoundAt (hay : Haystack) (l : List (Cursor × Cursor)) (found : List Captures) : Prop :=
  List.Forall₂ (fun x caps => caps.get? 0 = some (hay.matchAt ⟨x.1.offset, x.2.offset⟩)) l found

theorem Captures.whole?_of_get? {caps : Captures} {m : Match} (h : caps.get? 0 = some m) :
    caps.whole? = some m.toSpan := by
  rw [whole?, ← caps.toSpan_get?, h]
  rfl

namespace FoundAt

open Haystack

variable {hay : Haystack} {cur : Cursor} {l : List (Cursor × Cursor)} {found : List Captures}
  {rep : Replacer}

/-- **The rounds are calls**: a replacer that only puts text behind what is made is called once for
each of the captures, in order. -/
theorem replacing (h : FoundAt hay l found) (hl : InOrder cur l) (hcur : cur ∈ hay.cursors)
    (hrep : rep.Appends) (made : String) (s : rep.State) :
    Replacing rep s cur.offset cur.rest found made
      (copyAround Captures.whole? rep.append cur.offset cur.rest found made s).1
      (copyAround Captures.whole? rep.append cur.offset cur.rest found made s).2 := by
  induction h generalizing cur made s with
  | nil => exact .nil _ _ _ _
  | @cons x caps l found hget _ ih =>
    cases hl with
    | cons start_mem stop_mem rest =>
      have hx := Cursor.mem_onward_trans hcur start_mem
      have hspan := Captures.whole?_of_get? hget
      obtain ⟨text, s', hcall⟩ := hrep s caps (made ++ hay.slice cur.offset x.1.offset)
      have hmore := ih rest (Cursor.mem_onward_trans hx stop_mem)
        (made ++ hay.slice cur.offset x.1.offset ++ text) s'
      rw [copyAround_cons hcur start_mem stop_mem hspan, hcall,
        rest_eq_slice_append_slice hcur start_mem stop_mem]
      have hkept : String.ofList (hay.slice cur.offset x.1.offset).toList =
          hay.slice cur.offset x.1.offset := String.ofList_toList
      rw [← hkept] at hcall
      refine .cons hspan (byteLength_slice hcur start_mem) (byteLength_slice hx stop_mem) hcall ?_
      rw [hkept]
      exact hmore

/-- Nothing changes where group 0 is put in the place of each match. -/
theorem copyAround_whole (h : FoundAt hay l found) (hl : InOrder cur l) (hcur : cur ∈ hay.cursors)
    (made : String) (s : (Replacer.template "$0").State) :
    (copyAround Captures.whole? (Replacer.template "$0").append
      cur.offset cur.rest found made s).1 = made ++ String.ofList cur.rest := by
  induction h generalizing cur made s with
  | nil => rfl
  | @cons x caps l found hget _ ih =>
    cases hl with
    | cons start_mem stop_mem rest =>
      have hx := Cursor.mem_onward_trans hcur start_mem
      have hcall : ∀ made, ((Replacer.template "$0").append s caps made).1 =
          made ++ hay.slice x.1.offset x.2.offset := by
        intro made
        show made ++ caps.expand "$0" = made ++ hay.slice x.1.offset x.2.offset
        rw [Captures.expand_whole hget]
        rfl
      rw [copyAround_cons hcur start_mem stop_mem (Captures.whole?_of_get? hget), hcall]
      rw [ih rest (Cursor.mem_onward_trans hx stop_mem), ← String.toList_inj,
        rest_eq_slice_append_slice hcur start_mem stop_mem]
      simp

/-- The matches alone are the same stretches. -/
theorem forall₂_span (h : FoundAt hay l found) :
    List.Forall₂ (fun (m : Match) caps => some m.toSpan = caps.whole?)
      (l.map fun x => hay.matchAt ⟨x.1.offset, x.2.offset⟩) found := by
  induction h with
  | nil => exact .nil
  | cons hget _ ih => exact .cons (Captures.whole?_of_get? hget).symm ih

end FoundAt

/-! ## What replacing gives -/

namespace Regex

variable {re : Regex} {hay : Haystack} {l : List (Cursor × Cursor)}

/-- The captures of the matches that remain from the start of a text. -/
theorem foundAt_capturesAll (h : re.program.Remaining hay (some hay.start) none l)
    (hgroups : 2 ≤ re.program.slotCount) :
    FoundAt hay l (re.capturesAll hay) ∧
      Yields Matches.nextCaptures (.ofCaptures re hay) (re.capturesAll hay) := by
  have hcaptures : (Matches.ofCaptures re hay).Holds re hay re.program.slotCount l :=
    Matches.holds_ofWidth h _
  obtain ⟨caps, hyields, hcaps⟩ := Matches.exists_yields_nextCaptures hcaptures rfl hgroups
  have heq : re.capturesAll hay = caps :=
    hyields.collect_all (hcaps.length_eq ▸ h.length_le)
  rw [heq]
  exact ⟨hcaps.imp fun _ _ hx => hx.2, hyields⟩

/-- A replacer is called on the first captures, and there is no result where nothing is found. -/
theorem replaceEach_eq (h : re.program.Remaining hay (some hay.start) none l)
    (hgroups : 2 ≤ re.program.slotCount) (limit : Nat) (rep : Replacer) (s : rep.State) :
    re.replaceEach hay limit rep s =
      if l = [] then (none, s)
      else Prod.map some id (copyAround Captures.whole? rep.append 0 hay.chars
        (upTo limit (re.capturesAll hay)) "" s) := by
  obtain ⟨hfound, hyields⟩ := foundAt_capturesAll h hgroups
  have hcollect := hyields.collect_upTo (by rw [← hfound.length_eq]; exact h.length_le) limit
  have hnil : upTo limit (re.capturesAll hay) = [] ↔ l = [] := by
    rw [upTo_eq_nil_iff, ← List.length_eq_zero_iff, ← hfound.length_eq, List.length_eq_zero_iff]
  unfold replaceEach takeCaptures
  rw [hcollect]
  by_cases hl : l = []
  · rw [hnil.mpr hl, if_pos hl]
  · rw [if_neg hl]
    split
    · next heq => exact absurd (hnil.mp heq) hl
    · rfl

/-- **Both ways to replace give the same** where the same text is put in for every match. -/
theorem replaceFixed_eq (h : re.program.Remaining hay (some hay.start) none l)
    (hgroups : 2 ≤ re.program.slotCount) (limit : Nat) {rep : Replacer} {text : String}
    (hrep : rep.AppendsAlways text) (s : rep.State) :
    re.replaceFixed hay limit text = (re.replaceEach hay limit rep s).1 := by
  obtain ⟨hfound, -⟩ := foundAt_capturesAll h hgroups
  have hyields : Yields Matches.nextMatch (.ofRegex re hay) _ :=
    Matches.yields_nextMatch (Matches.holds_ofWidth h 2) (Nat.le_refl 2)
  have hcollect := hyields.collect_upTo (by rw [List.length_map]; exact h.length_le) limit
  have hupTo : FoundAt hay (upTo limit l) (upTo limit (re.capturesAll hay)) :=
    forall₂_upTo hfound limit
  rw [replaceEach_eq h hgroups]
  unfold replaceFixed takeMatches
  rw [hcollect, upTo_map]
  by_cases hl : l = []
  · rw [if_pos hl, upTo_eq_nil_iff.mpr hl]
    rfl
  · rw [if_neg hl]
    split
    · next heq => exact absurd (upTo_eq_nil_iff.mp (List.map_eq_nil_iff.mp heq)) hl
    · refine congrArg some (copyAround_congr hupTo.forall₂_span ?_ _ _ _ _ _)
      intro _ m made t caps
      exact (hrep t caps made).symm

/-- A replacer that gives a text for all matches replaces them as the text itself does. -/
theorem replaceAtMost_of_fixed? (h : re.program.Remaining hay (some hay.start) none l)
    (hgroups : 2 ≤ re.program.slotCount) (limit : Nat) {rep : Replacer} {text : String}
    (hfixed : rep.fixed? = some text) :
    re.replaceAtMost hay limit rep = (re.replaceEach hay limit (.verbatim text) ()).1 := by
  have hwith : (re.replaceWith hay limit rep).1 = re.replaceFixed hay limit text := by
    unfold Replacer.fixed? at hfixed
    unfold replaceWith
    split
    · next heq =>
      rw [heq] at hfixed
      rw [Option.some.inj hfixed]
    · next heq =>
      rw [heq] at hfixed
      simp at hfixed
  rw [replaceAtMost, hwith]
  exact replaceFixed_eq h hgroups limit (Replacer.appendsAlways_verbatim text) ()

/-- A replacer that gives no text for all matches is called for each of them. -/
theorem replaceWith_of_fixed? {rep : Replacer} (hfixed : rep.fixed? = none) (hay : Haystack)
    (limit : Nat) :
    re.replaceWith hay limit rep = re.replaceEach hay limit rep (rep.fixed rep.state).2 := by
  unfold Replacer.fixed? at hfixed
  unfold replaceWith
  split
  · next heq =>
    rw [heq] at hfixed
    simp at hfixed
  · next heq => rw [heq]

/-- Whether calls are made or not makes no difference where each would put in the same text. -/
theorem replaceAtMost_of_appendsAlways (h : re.program.Remaining hay (some hay.start) none l)
    (hgroups : 2 ≤ re.program.slotCount) (limit : Nat) {rep : Replacer} {text : String}
    (hrep : rep.AppendsAlways text) (hfixed : ∀ t, rep.fixed? = some t → rep.AppendsAlways t) :
    re.replaceAtMost hay limit rep = re.replaceFixed hay limit text := by
  rw [replaceFixed_eq h hgroups limit hrep (rep.fixed rep.state).2]
  cases hgiven : rep.fixed? with
  | none => rw [replaceAtMost, replaceWith_of_fixed? hgiven]
  | some t =>
    rw [replaceAtMost_of_fixed? h hgroups limit hgiven, ← replaceFixed_eq h hgroups limit
      (Replacer.appendsAlways_verbatim t) ()]
    exact replaceFixed_eq h hgroups limit (hfixed t hgiven) _

/-- There is no result just where nothing is found. -/
theorem replaceAtMost_eq_none_iff (h : re.program.Remaining hay (some hay.start) none l)
    (hgroups : 2 ≤ re.program.slotCount) (limit : Nat) (rep : Replacer) :
    re.replaceAtMost hay limit rep = none ↔ l = [] := by
  have heach : ∀ (rep : Replacer) s, (re.replaceEach hay limit rep s).1 = none ↔ l = [] := by
    intro rep s
    rw [replaceEach_eq h hgroups]
    split
    · next hnil => exact iff_of_true rfl hnil
    · next hne => exact iff_of_false (Option.some_ne_none _) hne
  cases hfixed : rep.fixed? with
  | none =>
    rw [replaceAtMost, replaceWith_of_fixed? hfixed]
    exact heach rep _
  | some text =>
    rw [replaceAtMost_of_fixed? h hgroups limit hfixed]
    exact heach (.verbatim text) ()

/-- A limit that leaves room for all matches is as good as none. -/
theorem replaceWith_of_length_le (h : re.program.Remaining hay (some hay.start) none l)
    (hgroups : 2 ≤ re.program.slotCount) {limit : Nat}
    (hlimit : (re.capturesAll hay).length ≤ limit) (rep : Replacer) :
    re.replaceWith hay limit rep = re.replaceWith hay 0 rep := by
  have heach : ∀ (rep : Replacer) s,
      re.replaceEach hay limit rep s = re.replaceEach hay 0 rep s := by
    intro rep s
    rw [replaceEach_eq h hgroups, replaceEach_eq h hgroups, upTo_of_length_le hlimit]
    rfl
  unfold replaceWith
  split
  · next text s _ =>
    have hverbatim := Replacer.appendsAlways_verbatim text
    rw [replaceFixed_eq h hgroups limit hverbatim (), replaceFixed_eq h hgroups 0 hverbatim (),
      congrArg Prod.fst (heach (.verbatim text) ())]
  · exact heach rep _

/-- **Each of the first matches is replaced by what a call puts in**, and all else is kept. -/
theorem replacing_replaceEach (h : re.program.Remaining hay (some hay.start) none l)
    (hgroups : 2 ≤ re.program.slotCount) (limit : Nat) {rep : Replacer} (hrep : rep.Appends)
    (s : rep.State) :
    Replacing rep s 0 hay.chars (upTo limit (re.capturesAll hay)) ""
      ((re.replaceEach hay limit rep s).1.getD hay.text) (re.replaceEach hay limit rep s).2 := by
  obtain ⟨hfound, -⟩ := foundAt_capturesAll h hgroups
  have hinOrder := h.inOrder hay.start_mem_cursors fun _ _ => Nat.zero_le _
  have hupTo : FoundAt hay (upTo limit l) (upTo limit (re.capturesAll hay)) :=
    forall₂_upTo hfound limit
  rw [replaceEach_eq h hgroups]
  split
  · next hnil =>
    subst hnil
    have hnone : re.capturesAll hay = [] := List.forall₂_nil_left_iff.mp hfound
    have hkept : "" ++ String.ofList hay.chars = hay.text := by
      rw [hay.chars_eq, String.ofList_toList, String.empty_append]
    have hnothing : Replacing rep s 0 hay.chars [] "" ("" ++ String.ofList hay.chars) s :=
      .nil s 0 hay.chars ""
    rw [hkept] at hnothing
    rw [hnone, upTo_eq_nil_iff.mpr rfl]
    exact hnothing
  · exact hupTo.replacing (hinOrder.upTo limit) hay.start_mem_cursors hrep "" s

/-- **Replaced by group 0**, nothing changes. -/
theorem replaceAll_whole (h : re.program.Remaining hay (some hay.start) none l)
    (hgroups : 2 ≤ re.program.slotCount) :
    (re.replaceAll hay (.template "$0")).getD hay.text = hay.text := by
  obtain ⟨hfound, -⟩ := foundAt_capturesAll h hgroups
  have hinOrder := h.inOrder hay.start_mem_cursors fun _ _ => Nat.zero_le _
  rw [replaceAll, replaceAtMost, replaceWith_of_fixed? rfl, replaceEach_eq h hgroups]
  split
  · rfl
  · refine (hfound.copyAround_whole hinOrder hay.start_mem_cursors "" ()).trans ?_
    rw [String.empty_append]
    exact (congrArg String.ofList hay.chars_eq).trans String.ofList_toList

/-- There is a match just when some remain from the start of the text. -/
theorem find_eq_none_iff (h : re.program.Remaining hay (some hay.start) none l) :
    re.find hay = none ↔ l = [] := by
  have hfound : ∀ {i j}, re.program.FindsMatch hay hay.start i j → re.find hay ≠ none := by
    intro i j hmatch
    unfold find
    rw [findFrom_of_findsMatch hmatch]
    exact Option.some_ne_none _
  cases h with
  | nothing _ hnothing => exact iff_of_true (findFrom_of_findsNothing hnothing) rfl
  | skip _ hlast _ => simp at hlast
  | empty hmatch _ _ => simp [hfound hmatch]
  | stretch hmatch _ _ => simp [hfound hmatch]

/-- **Replacing puts in what it should** and copies all else. The matches that are replaced are the
first ones, as many as the limit allows. A replacer that gives no text for all of them is called for
one after the other, and what each call puts behind the text made so far comes in the place of the
match; the state is handed from call to call. One that gives a text has just this text put in. The
text itself is kept just when there is no match. A template without a dollar sign gives itself, as a
text does that is taken as it is, and then the calls, if they were made, would put in the same. A
match that is replaced by its own text changes nothing, and a limit that leaves room for all matches
is as good as none. -/
theorem replaceAtMost_replaces {pattern : String} {options : Options}
    (h : build pattern options = .ok re) (hay : Haystack) :
    (∀ limit (rep : Replacer), rep.fixed? = none → rep.Appends →
      Replacing rep (rep.fixed rep.state).2 0 hay.chars (upTo limit (re.capturesAll hay)) ""
        ((re.replaceAtMost hay limit rep).getD hay.text) (re.replaceWith hay limit rep).2) ∧
    (∀ limit (rep : Replacer) text, rep.fixed? = some text →
      Replacing (.verbatim text) () 0 hay.chars (upTo limit (re.capturesAll hay)) ""
        ((re.replaceAtMost hay limit rep).getD hay.text) ()) ∧
    (∀ limit rep, re.replaceAtMost hay limit rep = none ↔ re.find hay = none) ∧
    (∀ limit text, (Replacer.verbatim text).fixed? = some text ∧
      re.replaceFixed hay limit text = (re.replaceEach hay limit (.verbatim text) ()).1) ∧
    (∀ limit text, '$' ∉ text.toList → (Replacer.template text).fixed? = some text ∧
      re.replaceFixed hay limit text = (re.replaceEach hay limit (.template text) ()).1) ∧
    (re.replaceAll hay (.template "$0")).getD hay.text = hay.text ∧
    ∀ limit rep, (re.capturesAll hay).length ≤ limit →
      re.replaceAtMost hay limit rep = re.replaceAll hay rep ∧
        (re.replaceWith hay limit rep).2 = (re.replaceWith hay 0 rep).2 := by
  obtain ⟨tree, exit, hc, hw, hgroups⟩ := exists_compiled_of_build h
  obtain ⟨l, hl⟩ := hc.exists_remaining hw hay.start_mem_cursors none
  refine ⟨?_, ?_, ?_, ?_, ?_, ?_, ?_⟩
  · intro limit rep hfixed hrep
    rw [replaceAtMost, replaceWith_of_fixed? hfixed]
    exact replacing_replaceEach hl hgroups limit hrep _
  · intro limit rep text hfixed
    rw [replaceAtMost_of_fixed? hl hgroups limit hfixed]
    exact replacing_replaceEach hl hgroups limit
      (Replacer.appendsAlways_verbatim text).appends ()
  · intro limit rep
    rw [find_eq_none_iff hl]
    exact replaceAtMost_eq_none_iff hl hgroups limit rep
  · intro limit text
    exact ⟨rfl, replaceFixed_eq hl hgroups limit (Replacer.appendsAlways_verbatim text) ()⟩
  · intro limit text hdollar
    exact ⟨Replacer.fixed?_template_eq_some.mpr ⟨hdollar, rfl⟩,
      replaceFixed_eq hl hgroups limit (Replacer.appendsAlways_template hdollar) ()⟩
  · exact replaceAll_whole hl hgroups
  · intro limit rep hlimit
    have hsame := replaceWith_of_length_le hl hgroups hlimit rep
    exact ⟨congrArg Prod.fst hsame, congrArg Prod.snd hsame⟩

/-- A function that counts its calls. Three of four matches are replaced, two of which are empty. -/
theorem replaceAtMost_replaces_star : ∃ re, build "(a)*" = .ok re ∧
    let rep := Replacer.closure "" fun calls caps =>
      (calls ++ "<" ++ caps.refText (.number 1) ++ ">", calls ++ "I")
    rep.fixed? = none ∧ rep.Appends ∧
    re.replaceWith (.ofString "béaac") 3 rep = (some "<>bI<>éII<a>c", "III") ∧
    Replacing rep "" 0 (Haystack.ofString "béaac").chars
      ((re.capturesAll (.ofString "béaac")).take 3) "" "<>bI<>éII<a>c" "III" := by
  obtain ⟨re, hbuild, hreplace⟩ : ∃ re, build "(a)*" = .ok re ∧
      re.replaceWith (.ofString "béaac") 3 (Replacer.closure "" fun calls caps =>
        (calls ++ "<" ++ caps.refText (.number 1) ++ ">", calls ++ "I")) =
      (some "<>bI<>éII<a>c", "III") := by
    with_unfolding_all exact ⟨_, rfl, by decide +kernel⟩
  obtain ⟨hcalls, -⟩ := replaceAtMost_replaces hbuild (.ofString "béaac")
  have hreplaces := hcalls 3 _ rfl (Replacer.appends_closure "" fun calls caps =>
    (calls ++ "<" ++ caps.refText (.number 1) ++ ">", calls ++ "I"))
  rw [replaceAtMost, hreplace] at hreplaces
  exact ⟨re, hbuild, rfl, Replacer.appends_closure _ _, hreplace, hreplaces⟩

end Regex

end LinearRegex
