import LinearRegex.Proofs.Pattern.Grouping
import LinearRegex.Proofs.Pattern.Places

/-!
# How brackets are spelled

A bracket is spelled with an opening bracket, a caret if it is negated, a closing bracket that is a
character of its own, and items up to the bracket that closes it. Items are read from the left: what
begins with a bracket and a colon is a named class, and a dash behind an atom makes a range unless
the bracket is closed right behind it.

Main statements: `Escape.scanChar_eq_ok_iff` for escapes, and `BracketItem.scanAtom_eq_ok_iff` for
atoms.
-/

namespace LinearRegex

/-! ## Reading what is in front -/

namespace Source

variable {s t u : Source} {c : Char} {cs ds : List Char} {p : Char → Bool}

theorem Reads.split (h : s.Reads (cs ++ ds) t) : ∃ u, s.Reads cs u ∧ u.Reads ds t := by
  refine ⟨⟨s.offset + Utf8.byteLength cs, ds ++ t.rest⟩, ⟨?_, rfl⟩, rfl, ?_⟩
  · rw [h.rest, List.append_assoc]
  · rw [h.offset, Utf8.byteLength_append, Nat.add_assoc]

theorem Reads.split_cons (h : s.Reads (c :: cs) t) : ∃ u, s.Reads [c] u ∧ u.Reads cs t :=
  split (s := s) h

/-- Where some characters are read, and what is left then. -/
theorem Reads.exists_eq (h : s.Reads cs t) :
    ∃ o rest, s = ⟨o, cs ++ rest⟩ ∧ t = ⟨o + Utf8.byteLength cs, rest⟩ := by
  refine ⟨s.offset, t.rest, ?_, ?_⟩
  · rw [← h.rest]
  · rw [← h.offset]

theorem Reads.eq (h : s.Reads cs t) (h' : s.Reads cs u) : t = u := by
  obtain ⟨o, rest, rfl, rfl⟩ := h.exists_eq
  obtain ⟨o', rest', hs, rfl⟩ := h'.exists_eq
  injection hs with ho hrest
  rw [ho, List.append_cancel_left hrest]

theorem Reads.head? (h : s.Reads cs t) (hcs : cs ≠ []) : s.rest.head? = cs.head? := by
  obtain ⟨c, cs, rfl⟩ := List.exists_cons_of_ne_nil hcs
  rw [h.rest]
  rfl

theorem next?_eq_some_iff : s.next? = some (c, t) ↔ s.Reads [c] t := by
  refine ⟨reads_of_next?, fun h => ?_⟩
  obtain ⟨o, rest, rfl, rfl⟩ := h.exists_eq
  rfl

theorem skip?_eq_some_iff : s.skip? c = some t ↔ s.Reads [c] t := by
  refine ⟨reads_of_skip?, fun h => ?_⟩
  obtain ⟨o, rest, rfl, rfl⟩ := h.exists_eq
  exact if_pos rfl

theorem skip?_eq_none_iff : s.skip? c = none ↔ s.rest.head? ≠ some c := by
  refine ⟨fun h hhead => ne_of_skip?_eq_none h c hhead rfl, fun h => ?_⟩
  cases hskip : s.skip? c with
  | none => rfl
  | some t =>
    rw [(reads_of_skip? hskip).rest] at h
    simp at h

theorem skipAll?_eq_some_iff : s.skipAll? cs = some t ↔ s.Reads cs t := by
  refine ⟨reads_of_skipAll?, fun h => ?_⟩
  induction cs generalizing s with
  | nil =>
    obtain rfl := Reads.eq h (Reads.refl s)
    rfl
  | cons c cs ih =>
    obtain ⟨u, hc, hcs⟩ := h.split_cons
    unfold skipAll?
    rw [List.foldlM_cons, skip?_eq_some_iff.mpr hc]
    exact ih hcs

/-- A character that may be there or not. -/
def mark (present : Bool) (c : Char) : List Char := if present then [c] else []

theorem reads_accept (s : Source) (c : Char) :
    s.Reads (mark (s.accept c).1 c) (s.accept c).2 ∧
      ((s.accept c).1 = false → (s.accept c).2.rest.head? ≠ some c) := by
  rcases accept_eq_or s c with ⟨t, ht, h⟩ | ⟨hnone, h⟩
  · rw [h]
    exact ⟨reads_of_skip? ht, by simp⟩
  · rw [h]
    exact ⟨.refl s, fun _ => skip?_eq_none_iff.mp hnone⟩

theorem accept_eq {present : Bool} (h : s.Reads (mark present c) t)
    (habsent : present = false → t.rest.head? ≠ some c) : s.accept c = (present, t) := by
  unfold accept
  cases present with
  | true => rw [skip?_eq_some_iff.mpr h]
  | false =>
    obtain rfl := Reads.eq (Reads.refl s) h
    rw [skip?_eq_none_iff.mpr (habsent rfl)]

theorem span_eq (h : s.Reads cs t) (hcs : ∀ c ∈ cs, p c = true)
    (ht : ∃ c ∈ t.rest.head?, p c = false) : s.span p = (cs, t) := by
  obtain ⟨o, rest, rfl, rfl⟩ := h.exists_eq
  obtain ⟨c, hc, hpc⟩ := ht
  obtain ⟨more, rfl⟩ : ∃ ds, rest = c :: ds := List.head?_eq_some_iff.mp hc
  exact Quantifier.span_append hcs hpc o

end Source

open Source

variable {s t : Source} {o : Nat} {c : Char} {text : List Char}

/-! ## Escapes -/

namespace Escape

/-- How a character is spelled in hexadecimal behind a letter: with a fixed number of digits, or
with from one to eight of them in braces. -/
inductive Hexadecimal (fixed : Nat) : List Char → Char → Prop
  | digits {ds : List Char} {c : Char} (hlength : ds.length = fixed)
    (hds : ∀ d ∈ ds, isHexDigit d = true) (hc : charOfHex? ds = some c) : Hexadecimal fixed ds c
  | braced {ds : List Char} {c : Char} (hpos : 0 < ds.length) (hle : ds.length ≤ bracedDigits)
    (hds : ∀ d ∈ ds, isHexDigit d = true) (hc : charOfHex? ds = some c) :
    Hexadecimal fixed ('\x7b' :: (ds ++ ['\x7d'])) c

/-- How a character is spelled behind a backslash. -/
inductive Spelled : List Char → Char → Prop
  | control {letter c : Char} (h : control? letter = some c) : Spelled [letter] c
  | byte {ds : List Char} {c : Char} (h : Hexadecimal 2 ds c) : Spelled ('x' :: ds) c
  | unit {ds : List Char} {c : Char} (h : Hexadecimal 4 ds c) : Spelled ('u' :: ds) c
  | itself {c : Char} (h : c ∈ metacharacters ∨ c = ' ') : Spelled [c] c

theorem hexDigits?_eq_some_iff {n : Nat} {ds : List Char} : hexDigits? n s = some (ds, t) ↔
    s.Reads ds t ∧ ds.length = n ∧ ∀ d ∈ ds, isHexDigit d = true := by
  induction n generalizing s ds with
  | zero =>
    constructor
    · intro h
      obtain ⟨rfl, rfl⟩ := Prod.mk.inj (Option.some.inj h)
      exact ⟨.refl s, rfl, by simp⟩
    · rintro ⟨hreads, hlength, -⟩
      obtain rfl := List.length_eq_zero_iff.mp hlength
      obtain rfl := Reads.eq hreads (Reads.refl s)
      rfl
  | succ n ih =>
    constructor
    · intro h
      unfold hexDigits? at h
      split at h
      · simp at h
      · next d u hu =>
        split at h
        · next hd =>
          obtain ⟨⟨ds, v⟩, hds, hp⟩ := Option.map_eq_some_iff.mp h
          obtain ⟨rfl, rfl⟩ := Prod.mk.inj hp
          obtain ⟨hreads, hlength, hall⟩ := ih.mp hds
          exact ⟨(reads_of_next? hu).trans hreads, congrArg (· + 1) hlength,
            List.forall_mem_cons.mpr ⟨hd, hall⟩⟩
        · simp at h
    · rintro ⟨hreads, hlength, hall⟩
      obtain ⟨d, ds, rfl⟩ := List.exists_cons_of_length_eq_add_one hlength
      obtain ⟨hd, hall⟩ := List.forall_mem_cons.mp hall
      obtain ⟨u, hu, hreads⟩ := hreads.split_cons
      unfold hexDigits?
      rw [next?_eq_some_iff.mpr hu]
      dsimp only
      rw [if_pos hd, ih.mpr ⟨hreads, Nat.succ.inj hlength, hall⟩]
      rfl

theorem not_isHexDigit_brace : isHexDigit '\x7b' = false ∧ isHexDigit '\x7d' = false := by decide

theorem hexChar?_eq_some_iff {fixed : Nat} (hfixed : 0 < fixed) :
    hexChar? fixed s = some (c, t) ↔ ∃ text, Hexadecimal fixed text c ∧ s.Reads text t := by
  constructor
  · intro h
    unfold hexChar? at h
    split at h
    · next inner hinner =>
      dsimp only at h
      split at h
      · next hlength =>
        obtain ⟨u, hu, hm⟩ := Option.bind_eq_some_iff.mp h
        obtain ⟨d, hd, hp⟩ := Option.map_eq_some_iff.mp hm
        obtain ⟨rfl, rfl⟩ := Prod.mk.inj hp
        obtain ⟨hdigits, hall⟩ := reads_span inner isHexDigit
        refine ⟨_, .braced hlength.1 hlength.2 hall hd, ?_⟩
        exact (reads_of_skip? hinner).trans (hdigits.trans (reads_of_skip? hu))
      · simp at h
    · obtain ⟨⟨ds, u⟩, hu, hm⟩ := Option.bind_eq_some_iff.mp h
      obtain ⟨d, hd, hp⟩ := Option.map_eq_some_iff.mp hm
      obtain ⟨rfl, rfl⟩ := Prod.mk.inj hp
      obtain ⟨hreads, hlength, hall⟩ := hexDigits?_eq_some_iff.mp hu
      exact ⟨ds, .digits hlength hall hd, hreads⟩
  · rintro ⟨text, htext, hreads⟩
    unfold hexChar?
    cases htext with
    | digits hlength hall hc =>
      obtain ⟨d, ds, rfl⟩ := List.exists_cons_of_length_pos (hlength ▸ hfixed)
      have hbrace : s.skip? '\x7b' = none := by
        rw [skip?_eq_none_iff, hreads.rest]
        intro hhead
        obtain rfl := Option.some.inj hhead
        exact absurd (hall _ List.mem_cons_self) (by simp [not_isHexDigit_brace])
      rw [hbrace, hexDigits?_eq_some_iff.mpr ⟨hreads, hlength, hall⟩]
      dsimp only [Option.bind_some]
      rw [hc]
      rfl
    | @braced ds _ hpos hle hall hc =>
      obtain ⟨u, hopen, hreads⟩ := hreads.split_cons
      obtain ⟨v, hdigits, hclose⟩ := hreads.split
      have hspan : u.span isHexDigit = (ds, v) := by
        refine span_eq hdigits hall ⟨'\x7d', ?_, not_isHexDigit_brace.2⟩
        rw [hclose.rest]
        rfl
      rw [skip?_eq_some_iff.mpr hopen]
      dsimp only
      rw [hspan]
      dsimp only
      rw [if_pos ⟨hpos, hle⟩, skip?_eq_some_iff.mpr hclose]
      dsimp only [Option.bind_some]
      rw [hc]
      rfl

/-- What follows a backslash in an escape begins with no letter of a control character if it is
hexadecimal or the character itself. -/
theorem control?_eq_none {d : Char} (hd : d = 'x' ∨ d = 'u' ∨ d ∈ metacharacters ∨ d = ' ') :
    control? d = none := by
  have hmeta : ∀ d ∈ metacharacters, control? d = none := by simp [metacharacters, control?]
  rcases hd with rfl | rfl | hd | rfl
  · rfl
  · rfl
  · exact hmeta d hd
  · rfl

theorem ne_of_mem_metacharacters {d : Char} (hd : d ∈ metacharacters ∨ d = ' ') :
    d ≠ 'x' ∧ d ≠ 'u' := by
  have hmeta : ∀ d ∈ metacharacters, d ≠ 'x' ∧ d ≠ 'u' := by simp [metacharacters]
  rcases hd with hd | rfl
  · exact hmeta d hd
  · decide

/-- **An escape is read as it is spelled.** -/
theorem scanChar_eq_ok_iff :
    scanChar o s = .ok (c, t) ↔ ∃ text, Spelled text c ∧ s.Reads text t := by
  constructor
  · intro h
    unfold scanChar at h
    split at h
    · simp at h
    · next d u hu =>
      have hu := reads_of_next? hu
      -- Both ways to spell a code point are read alike.
      have hhex : ∀ fixed, 0 < fixed → hexChar? fixed u = some (c, t) →
          ∃ text, Hexadecimal fixed text c ∧ s.Reads (d :: text) t := by
        intro fixed hfixed h
        obtain ⟨text, htext, hreads⟩ := (hexChar?_eq_some_iff hfixed).mp h
        exact ⟨text, htext, hu.trans hreads⟩
      dsimp only at h
      split at h
      · next hcontrol =>
        obtain ⟨rfl, rfl⟩ := Prod.mk.inj (Except.ok.inj h)
        exact ⟨[d], .control hcontrol, hu⟩
      · split at h
        · next hd =>
          subst hd
          split at h
          · next hresult =>
            obtain rfl := Except.ok.inj h
            obtain ⟨text, htext, hreads⟩ := hhex 2 (by decide) hresult
            exact ⟨_, .byte htext, hreads⟩
          · simp at h
        · split at h
          · next hd =>
            subst hd
            split at h
            · next hresult =>
              obtain rfl := Except.ok.inj h
              obtain ⟨text, htext, hreads⟩ := hhex 4 (by decide) hresult
              exact ⟨_, .unit htext, hreads⟩
            · simp at h
          · split at h
            · next hd =>
              obtain ⟨rfl, rfl⟩ := Prod.mk.inj (Except.ok.inj h)
              refine ⟨[d], .itself ?_, hu⟩
              simpa using hd
            · simp at h
  · rintro ⟨text, htext, hreads⟩
    unfold scanChar
    cases htext with
    | control hcontrol =>
      rw [next?_eq_some_iff.mpr hreads]
      dsimp only
      rw [hcontrol]
    | byte htext =>
      obtain ⟨u, hu, hreads⟩ := hreads.split_cons
      rw [next?_eq_some_iff.mpr hu]
      dsimp only
      rw [control?_eq_none (by simp), (hexChar?_eq_some_iff (by decide)).mpr ⟨_, htext, hreads⟩]
      rfl
    | unit htext =>
      obtain ⟨u, hu, hreads⟩ := hreads.split_cons
      rw [next?_eq_some_iff.mpr hu]
      dsimp only
      rw [control?_eq_none (by simp), if_neg (by decide),
        (hexChar?_eq_some_iff (by decide)).mpr ⟨_, htext, hreads⟩]
      rfl
    | itself hmeta =>
      obtain ⟨hx, hu⟩ := ne_of_mem_metacharacters hmeta
      rw [next?_eq_some_iff.mpr hreads]
      dsimp only
      rw [control?_eq_none (.inr (.inr hmeta)), if_neg hx, if_neg hu, if_pos (by simpa using hmeta)]

/-- No escape of a character begins like a shorthand class or a backspace. -/
theorem Spelled.exists_cons (h : Spelled text c) :
    ∃ d ds, text = d :: ds ∧ ClassEscape.ofLetter? d = none ∧ d ≠ 'b' := by
  have hmeta : ∀ d ∈ metacharacters, ClassEscape.ofLetter? d = none ∧ d ≠ 'b' := by
    simp [metacharacters, ClassEscape.ofLetter?]
  cases h with
  | @control letter _ h =>
    refine ⟨letter, [], rfl, ?_⟩
    unfold control? at h
    split at h
    all_goals first
      | decide
      | simp at h
  | byte => exact ⟨'x', _, rfl, by decide⟩
  | unit => exact ⟨'u', _, rfl, by decide⟩
  | itself h =>
    refine ⟨c, [], rfl, ?_⟩
    rcases h with h | rfl
    · exact hmeta c h
    · decide

end Escape

/-! ## Items -/

namespace BracketItem

/-- How an atom is spelled. -/
inductive Atom.Spelled : List Char → Atom → Prop
  | plain {c : Char} (hclosing : c ≠ ']') (hbackslash : c ≠ '\\') : Spelled [c] (.char c)
  | escape {letter : Char} {e : ClassEscape} (h : ClassEscape.ofLetter? letter = some e) :
    Spelled ['\\', letter] (.escape e)
  | backspace : Spelled ['\\', 'b'] (.char '\x08')
  | escaped {text : List Char} {c : Char} (h : Escape.Spelled text c) :
    Spelled ('\\' :: text) (.char c)

/-- How an item is spelled in front of a character. -/
inductive ItemSpelled : List Char → Option Char → BracketItem → Prop
  /-- A named class, perhaps its complement. -/
  | named {name : String} {members : List Interval} {negated : Bool} {next : Option Char}
    (hname : CharSet.Ascii.named? name = some members) :
    ItemSpelled ('[' :: ':' :: (mark negated '^' ++ name.toList ++ [':', ']'])) next
      (.named members negated)
  /-- An atom alone: the next character makes it neither a named class nor a range. -/
  | atom {text : List Char} {a : Atom} {next : Option Char} (ha : a.Spelled text)
    (hnamed : text = ['['] → next ≠ some ':') (hrange : next ≠ some '-') :
    ItemSpelled text next a.item
  /-- A range of two characters in order. -/
  | range {low high : List Char} {a b : Char} {next : Option Char} (ha : (Atom.char a).Spelled low)
    (hb : (Atom.char b).Spelled high) (hle : a ≤ b) :
    ItemSpelled (low ++ '-' :: high) next (.range a b)

/-- How the items of a bracket are spelled, with the bracket that closes it. -/
inductive ItemsSpelled : List Char → List BracketItem → Prop
  | close : ItemsSpelled [']'] []
  | item {text rest : List Char} {item : BracketItem} {items : List BracketItem}
    (h : ItemSpelled text rest.head? item) (more : ItemsSpelled rest items) :
    ItemsSpelled (text ++ rest) (item :: items)
  /-- An atom and a dash right before the closing bracket. -/
  | dash {text : List Char} {a : Atom} (ha : a.Spelled text) :
    ItemsSpelled (text ++ ['-', ']']) [a.item, .char '-']

/-- How a bracket is spelled. A closing bracket in the first place is a character, and a caret in
the first place is none. -/
inductive Spelled : List Char → Bool → List BracketItem → Prop
  | bracket {text : List Char} {items : List BracketItem} {negated closing : Bool}
    (h : ItemsSpelled text items) (hclosing : closing = false → text.head? ≠ some ']')
    (hnegated : negated = false → closing = false → text.head? ≠ some '^') :
    Spelled ('[' :: (mark negated '^' ++ mark closing ']' ++ text)) negated
      ((mark closing ']').map .char ++ items)

variable {a : Atom} {items : List BracketItem} {rest : List Char}

theorem Atom.Spelled.exists_cons (h : a.Spelled text) : ∃ d ds, text = d :: ds ∧ d ≠ ']' := by
  cases h with
  | plain hclosing _ => exact ⟨_, _, rfl, hclosing⟩
  | _ => exact ⟨'\\', _, rfl, by decide⟩

theorem ItemSpelled.exists_cons {next : Option Char} {item : BracketItem}
    (h : ItemSpelled text next item) : ∃ d ds, text = d :: ds ∧ d ≠ ']' := by
  cases h with
  | named => exact ⟨'[', _, rfl, by decide⟩
  | atom ha => exact ha.exists_cons
  | range ha =>
    obtain ⟨d, ds, rfl, hd⟩ := ha.exists_cons
    exact ⟨d, _, rfl, hd⟩

theorem ItemsSpelled.ne_nil (h : ItemsSpelled text items) : text ≠ [] := by
  cases h with
  | close => exact List.cons_ne_nil _ _
  | item h =>
    obtain ⟨d, ds, rfl, -⟩ := h.exists_cons
    exact List.cons_ne_nil _ _
  | dash => simp

/-- What begins with a closing bracket has no items. -/
theorem ItemsSpelled.of_closing (h : ItemsSpelled text items) (hhead : text.head? = some ']') :
    text = [']'] ∧ items = [] := by
  cases h with
  | close => exact ⟨rfl, rfl⟩
  | item h =>
    obtain ⟨d, ds, rfl, hd⟩ := h.exists_cons
    exact absurd (Option.some.inj hhead) hd
  | dash ha =>
    obtain ⟨d, ds, rfl, hd⟩ := ha.exists_cons
    exact absurd (Option.some.inj hhead) hd

/-- **An atom is read as it is spelled.** -/
theorem scanAtom_eq_ok_iff (hc : c ≠ ']') :
    scanAtom o c s = .ok (a, t) ↔ ∃ text, a.Spelled (c :: text) ∧ s.Reads text t := by
  constructor
  · intro h
    unfold scanAtom at h
    split at h
    · next hbackslash =>
      subst hbackslash
      split at h
      · simp at h
      · next d u hu =>
        have hu := reads_of_next? hu
        split at h
        · next e he =>
          obtain ⟨rfl, rfl⟩ := Prod.mk.inj (Except.ok.inj h)
          exact ⟨[d], .escape he, hu⟩
        · split at h
          · next hd =>
            subst hd
            obtain ⟨rfl, rfl⟩ := Prod.mk.inj (Except.ok.inj h)
            exact ⟨['b'], .backspace, hu⟩
          · split at h
            · simp at h
            · next d v hv =>
              obtain ⟨rfl, rfl⟩ := Prod.mk.inj (Except.ok.inj h)
              obtain ⟨text, htext, hreads⟩ := Escape.scanChar_eq_ok_iff.mp hv
              exact ⟨text, .escaped htext, hreads⟩
    · next hbackslash =>
      obtain ⟨rfl, rfl⟩ := Prod.mk.inj (Except.ok.inj h)
      exact ⟨[], .plain hc hbackslash, .refl s⟩
  · rintro ⟨text, htext, hreads⟩
    unfold scanAtom
    cases htext with
    | plain _ hbackslash =>
      obtain rfl := Reads.eq (Reads.refl s) hreads
      exact if_neg hbackslash
    | escape he =>
      rw [if_pos rfl, next?_eq_some_iff.mpr hreads]
      dsimp only
      rw [he]
    | backspace =>
      rw [if_pos rfl, next?_eq_some_iff.mpr hreads]
      rfl
    | escaped htext =>
      have hscan := (Escape.scanChar_eq_ok_iff (o := o)).mpr ⟨_, htext, hreads⟩
      obtain ⟨d, ds, rfl, hclass, hb⟩ := htext.exists_cons
      obtain ⟨u, hu, -⟩ := hreads.split_cons
      rw [if_pos rfl, next?_eq_some_iff.mpr hu]
      dsimp only
      rw [hclass]
      dsimp only
      rw [if_neg hb, hscan]

end BracketItem

end LinearRegex
