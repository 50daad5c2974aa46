import LinearRegex.Proofs.Text.Slice
import LinearRegex.Replace.Template
import Mathlib.Data.List.TakeWhile
import Mathlib.Data.Nat.Digits.Defs

/-!
# References in templates

A reference is a name in braces, up to the first closing one, or the longest run of letters, digits
and underscores behind a dollar sign, and its name is not empty. It refers to a group by number if
the name is a numeral, or a numeral behind a plus sign, with a value below the limit, and by name
otherwise.

Main statement: `parse?_grammar`.
-/

namespace LinearRegex.GroupRef

open Utf8

variable {c : Char} {cs name rest text : List Char} {r : Scanned} {n : Nat}

/-! ## Numerals -/

/-- A character that may stand in a name without braces. -/
def NameChar (c : Char) : Prop :=
  'a' ≤ c ∧ c ≤ 'z' ∨ 'A' ≤ c ∧ c ≤ 'Z' ∨ '0' ≤ c ∧ c ≤ '9' ∨ c = '_'

/-- Decimal digits, at least one of them, and their value. The last one counts least. -/
def Numeral (digits : List Char) (n : Nat) : Prop :=
  digits ≠ [] ∧ (∀ c ∈ digits, '0' ≤ c ∧ c ≤ '9') ∧
    n = Nat.ofDigits 10 (digits.reverse.map fun c => c.toNat - '0'.toNat)

theorem isDigit_iff : c.isDigit = true ↔ '0' ≤ c ∧ c ≤ '9' := by
  simp only [Char.isDigit, Bool.and_eq_true, decide_eq_true_eq]
  exact Iff.rfl

theorem isNameChar_iff : isNameChar c = true ↔ NameChar c := by
  have halpha : c.isAlpha = (decide ('A' ≤ c ∧ c ≤ 'Z') ||
      decide ('a' ≤ c) && decide (c ≤ 'z')) := rfl
  simp only [isNameChar, NameChar, Char.isAlphanum, halpha, Bool.or_eq_true, Bool.and_eq_true,
    decide_eq_true_eq, beq_iff_eq, isDigit_iff, or_assoc]
  exact or_left_comm

/-- **Reading digits from the left** gives their value. -/
theorem valueOfDigits_eq (digits : List Char) :
    valueOfDigits digits = Nat.ofDigits 10 (digits.reverse.map fun c => c.toNat - '0'.toNat) := by
  rw [Nat.ofDigits_eq_foldr, List.foldr_map, List.foldr_reverse, valueOfDigits]
  congr 1
  funext n d
  rw [Nat.mul_comm, Nat.add_comm]
  rfl

theorem numeral_iff {digits : List Char} :
    Numeral digits n ↔ digits ≠ [] ∧ digits.all Char.isDigit = true ∧ n = valueOfDigits digits := by
  simp only [Numeral, valueOfDigits_eq, List.all_eq_true, isDigit_iff]

/-- What spells a number: a numeral, perhaps behind a plus sign, with a value below the limit. -/
def Spells (name : List Char) (n : Nat) : Prop :=
  n < 2 ^ 64 ∧ (Numeral name n ∨ ∃ digits, name = '+' :: digits ∧ Numeral digits n)

theorem not_numeral_plus {digits : List Char} : ¬ Numeral ('+' :: digits) n := by
  rintro ⟨-, hdigits, -⟩
  exact absurd (hdigits '+' List.mem_cons_self) (by decide)

theorem number?_eq_some_iff : number? name = some n ↔ Spells name n := by
  have hread : ∀ digits : List Char,
      (if !digits.isEmpty && digits.all Char.isDigit && valueOfDigits digits < numberLimit then
        some (valueOfDigits digits) else none) = some n ↔ n < 2 ^ 64 ∧ Numeral digits n := by
    intro digits
    simp only [numeral_iff, Option.ite_none_right_eq_some, Option.some.injEq, Bool.and_eq_true,
      Bool.not_eq_true', List.isEmpty_eq_false_iff, decide_eq_true_eq]
    constructor
    · rintro ⟨⟨⟨hne, hall⟩, hlt⟩, rfl⟩
      exact ⟨hlt, hne, hall, rfl⟩
    · rintro ⟨hlt, hne, hall, rfl⟩
      exact ⟨⟨⟨hne, hall⟩, hlt⟩, rfl⟩
  unfold number? Spells
  split
  · next d ds =>
    rw [hread]
    simp only [not_numeral_plus, false_or, List.cons.injEq, true_and, exists_eq_left']
  · next hne =>
    rw [hread]
    refine and_congr_right fun _ => (or_iff_left ?_).symm
    rintro ⟨digits, rfl, hdigits⟩
    obtain ⟨d, ds, rfl⟩ := List.exists_cons_of_ne_nil hdigits.1
    exact hne d ds rfl

/-- **What a name refers to.** -/
theorem ofName_eq_number_iff : ofName name = .number n ↔ Spells name n := by
  rw [← number?_eq_some_iff, ofName]
  cases number? name with
  | none => simp
  | some m => simp

theorem ofName_eq_named_iff {s : String} :
    ofName name = .named s ↔ s = String.ofList name ∧ ∀ n, ¬ Spells name n := by
  simp only [← number?_eq_some_iff, ofName]
  cases number? name with
  | none => simp [eq_comm]
  | some m => simp

/-! ## Spellings -/

theorem parse?_dollar (cs : List Char) : parse? (String.ofList ('$' :: cs)) = scan? cs := by
  unfold parse?
  rw [String.toList_ofList]
  rfl

/-- How a reference is spelled behind its dollar sign, in front of the rest of a text. -/
inductive Spelled : List Char → List Char → List Char → Prop
  /-- A name in braces goes up to the first closing one. -/
  | braced {name rest : List Char} (hne : name ≠ []) (hname : '\x7d' ∉ name) :
    Spelled ('\x7b' :: (name ++ ['\x7d'])) name rest
  /-- A name without braces goes on as long as it can. -/
  | bare {name rest : List Char} (hne : name ≠ []) (hname : ∀ c ∈ name, NameChar c)
    (hrest : ∀ c ∈ rest.head?, ¬ NameChar c) : Spelled name name rest

/-- A run of characters that pass a test, up to one that does not. -/
theorem takeWhile_append_of_head {p : Char → Bool} (htext : ∀ c ∈ text, p c = true)
    (hrest : ∀ c ∈ rest.head?, p c = false) :
    (text ++ rest).takeWhile p = text ∧ (text ++ rest).dropWhile p = rest := by
  rw [List.takeWhile_append_of_pos htext, List.dropWhile_append_of_pos htext]
  cases rest with
  | nil => simp
  | cons c rest => simp [hrest c rfl]

/-- What stands in front of the first occurrence of a character. -/
theorem takeWhile_ne_append {d : Char} (htext : d ∉ text) (hrest : ∀ c ∈ rest.head?, c = d) :
    (text ++ rest).takeWhile (· != d) = text ∧ (text ++ rest).dropWhile (· != d) = rest := by
  refine takeWhile_append_of_head (fun c hc => ?_) fun c hc => ?_
  · rw [bne_iff_ne]
    rintro rfl
    exact htext hc
  · rw [hrest c hc, bne_self_eq_false]

theorem scanBraced?_eq_some_iff :
    scanBraced? cs = some (name, rest) ↔ '\x7d' ∉ name ∧ cs = name ++ '\x7d' :: rest := by
  constructor
  · intro h
    have hjoin := List.takeWhile_append_dropWhile (p := (· != '\x7d')) (l := cs)
    have hhead := List.head?_dropWhile_not (· != '\x7d') cs
    unfold scanBraced? at h
    split at h
    · next d more hdrop =>
      obtain ⟨rfl, rfl⟩ := Prod.mk.inj (Option.some.inj h)
      obtain rfl : d = '\x7d' := by simpa [hdrop] using hhead
      rw [hdrop] at hjoin
      exact ⟨fun hmem => absurd (List.mem_takeWhile_imp hmem) (by simp), hjoin.symm⟩
    · simp at h
  · rintro ⟨hname, rfl⟩
    have hhead : ∀ c ∈ ('\x7d' :: rest).head?, c = '\x7d' := by simp
    obtain ⟨htake, hdrop⟩ := takeWhile_ne_append hname hhead
    rw [scanBraced?, hdrop, htake]

theorem scanBraced?_eq_none_iff : scanBraced? cs = none ↔ '\x7d' ∉ cs := by
  rw [← not_iff_not, ← ne_eq, Option.ne_none_iff_exists', not_not]
  constructor
  · rintro ⟨⟨name, rest⟩, h⟩
    rw [(scanBraced?_eq_some_iff.mp h).2]
    exact List.mem_append_right _ List.mem_cons_self
  · intro h
    obtain ⟨name, rest, heq, hname⟩ := List.eq_append_cons_of_mem h
    exact ⟨(name, rest), scanBraced?_eq_some_iff.mpr ⟨hname, heq⟩⟩

theorem scanName?_bare (h : cs.head? ≠ some '\x7b') :
    scanName? cs = some ⟨cs.takeWhile isNameChar, byteLength (cs.takeWhile isNameChar) + 1,
      cs.dropWhile isNameChar⟩ := by
  unfold scanName?
  split
  · simp at h
  · rfl

theorem byteLength_braced (name : List Char) :
    byteLength ('$' :: '\x7b' :: (name ++ ['\x7d'])) = byteLength name + 3 := by
  have hdollar : '$'.utf8Size = 1 := by decide
  have hopen : '\x7b'.utf8Size = 1 := by decide
  have hclose : byteLength ['\x7d'] = 1 := by decide
  simp only [byteLength_cons, byteLength_append, hdollar, hopen, hclose]
  omega

theorem byteLength_bare (name : List Char) : byteLength ('$' :: name) = byteLength name + 1 := by
  rw [byteLength_cons, show '$'.utf8Size = 1 by decide, Nat.add_comm]

/-- What is read is spelled. -/
theorem exists_spelled_of_scan? (h : scan? cs = some r) :
    ∃ text, cs = text ++ r.rest ∧ Spelled text r.name r.rest ∧
      r.length = byteLength ('$' :: text) := by
  obtain ⟨h, hne⟩ := Option.filter_eq_some_iff.mp h
  rw [Bool.not_eq_true', List.isEmpty_eq_false_iff] at hne
  by_cases hbrace : cs.head? = some '\x7b'
  · obtain ⟨inner, rfl⟩ := List.head?_eq_some_iff.mp hbrace
    obtain ⟨⟨name, rest⟩, hbraced, rfl⟩ := Option.map_eq_some_iff.mp h
    obtain ⟨hname, rfl⟩ := scanBraced?_eq_some_iff.mp hbraced
    exact ⟨_, by simp, .braced hne hname, (byteLength_braced name).symm⟩
  · rw [scanName?_bare hbrace] at h
    obtain rfl := Option.some.inj h
    refine ⟨_, List.takeWhile_append_dropWhile.symm, .bare hne (fun c hc => ?_) fun c hc => ?_,
      (byteLength_bare _).symm⟩
    · exact isNameChar_iff.mp (List.mem_takeWhile_imp hc)
    · have hhead := List.head?_dropWhile_not isNameChar cs
      rw [Option.mem_def.mp hc] at hhead
      rw [← isNameChar_iff, Bool.not_eq_true]
      exact hhead

/-- What is spelled is read. -/
theorem scan?_of_spelled (h : Spelled text name rest) :
    scan? (text ++ rest) = some ⟨name, byteLength ('$' :: text), rest⟩ := by
  cases h with
  | braced hne hname =>
    have hbraced : scanBraced? (name ++ '\x7d' :: rest) = some (name, rest) :=
      scanBraced?_eq_some_iff.mpr ⟨hname, rfl⟩
    rw [byteLength_braced]
    simp [scan?, scanName?, hbraced, hne]
  | bare hne hname hrest =>
    obtain ⟨htake, hdrop⟩ := takeWhile_append_of_head (fun c hc => isNameChar_iff.mpr (hname c hc))
      fun c hc => Bool.eq_false_iff.mpr fun h => hrest c hc (isNameChar_iff.mp h)
    obtain ⟨c, more, rfl⟩ := List.exists_cons_of_ne_nil hne
    have hbrace : (c :: more ++ rest).head? ≠ some '\x7b' := by
      intro hhead
      obtain rfl : c = '\x7b' := by simpa using hhead
      exact absurd (isNameChar_iff.mpr (hname _ List.mem_cons_self)) (by decide)
    rw [scan?, scanName?_bare hbrace, htake, hdrop, byteLength_bare]
    rfl

/-- **A reference is read where one is spelled.** -/
theorem scan?_eq_some_iff : scan? cs = some r ↔
    ∃ text, cs = text ++ r.rest ∧ Spelled text r.name r.rest ∧
      r.length = byteLength ('$' :: text) := by
  refine ⟨exists_spelled_of_scan?, ?_⟩
  rintro ⟨text, rfl, hspelled, hlength⟩
  rw [scan?_of_spelled hspelled, ← hlength]

/-- **Where no reference is spelled**: no brace closes, or one closes at once, or there is no
name. -/
theorem scan?_eq_none_iff : scan? cs = none ↔
    (∃ inner, cs = '\x7b' :: inner ∧ ('\x7d' ∉ inner ∨ inner.head? = some '\x7d')) ∨
      cs.head? ≠ some '\x7b' ∧ ∀ c ∈ cs.head?, ¬ NameChar c := by
  have hfilter : scan? cs = none ↔ ∀ r, scanName? cs = some r → r.name = [] := by
    simp [scan?, Option.filter_eq_none_iff]
  rw [hfilter]
  by_cases hbrace : cs.head? = some '\x7b'
  · obtain ⟨inner, rfl⟩ := List.head?_eq_some_iff.mp hbrace
    have hinner : (∃ cs, '\x7b' :: inner = '\x7b' :: cs ∧
        ('\x7d' ∉ cs ∨ cs.head? = some '\x7d')) ↔ '\x7d' ∉ inner ∨ inner.head? = some '\x7d' := by
      simp
    rw [hinner, or_iff_left fun h => h.1 hbrace]
    cases hscan : scanBraced? inner with
    | none =>
      refine iff_of_true (fun r hr => ?_) (Or.inl (scanBraced?_eq_none_iff.mp hscan))
      simp [scanName?, hscan] at hr
    | some p =>
      obtain ⟨name, rest⟩ := p
      have hname : (∀ r, scanName? ('\x7b' :: inner) = some r → r.name = []) ↔ name = [] := by
        simp [scanName?, hscan]
      obtain ⟨hnot, rfl⟩ := scanBraced?_eq_some_iff.mp hscan
      rw [hname]
      cases name with
      | nil => simp
      | cons c name =>
        rw [List.mem_cons, not_or] at hnot
        simp [Ne.symm hnot.1]
  · rw [scanName?_bare hbrace]
    cases cs with
    | nil => simp
    | cons c cs => simp_all [isNameChar_iff]

/-- **References are read by their grammar.** Behind a dollar sign, a reference is read just where
one is spelled: a name that is not empty, in braces up to the first closing one or without braces
as long as it can be; it is as long as its spelling. It refers to a group by number just where its
name spells one, and by its name otherwise. -/
theorem parse?_grammar (cs : List Char) :
    (∀ r, parse? (String.ofList ('$' :: cs)) = some r ↔
      ∃ text, cs = text ++ r.rest ∧ Spelled text r.name r.rest ∧
        r.length = byteLength ('$' :: text)) ∧
    (parse? (String.ofList ('$' :: cs)) = none ↔
      (∃ inner, cs = '\x7b' :: inner ∧ ('\x7d' ∉ inner ∨ inner.head? = some '\x7d')) ∨
        cs.head? ≠ some '\x7b' ∧ ∀ c ∈ cs.head?, ¬ NameChar c) ∧
    ∀ r, parse? (String.ofList ('$' :: cs)) = some r →
      (∀ n, r.group = .number n ↔ Spells r.name n) ∧
      ∀ s, r.group = .named s ↔ s = String.ofList r.name ∧ ∀ n, ¬ Spells r.name n := by
  rw [parse?_dollar]
  exact ⟨fun r => scan?_eq_some_iff, scan?_eq_none_iff,
    fun r _ => ⟨fun n => ofName_eq_number_iff, fun s => ofName_eq_named_iff⟩⟩

/-- A sign in braces makes a number of what is no numeral. -/
theorem exists_signed_number : ∃ r, parse? "$\x7b+1\x7d" = some r ∧ r.name = ['+', '1'] ∧
    r.length = 5 ∧ r.group = .number 1 ∧ ¬ ∃ n, Numeral r.name n :=
  ⟨⟨['+', '1'], 5, []⟩, by with_unfolding_all rfl, rfl, rfl, by with_unfolding_all rfl,
    fun ⟨_, h⟩ => not_numeral_plus h⟩

end LinearRegex.GroupRef
