import LinearRegex.Proofs.Bracket.Alone
import LinearRegex.Proofs.CharClass
import LinearRegex.Proofs.Pattern.Folded
import LinearRegex.Proofs.Pattern.Tokens

/-!
# What a bracket matches

A bracket collects what belongs to its items. It keeps code points in merged intervals and shorthand
classes beside them, or written out as code points where they go by ASCII; either way a character is
held by the bracket if it belongs to one of the items.

Main statements: `Bracket.holds_ofItems_iff`, and `Pattern.parse_bracket_denotes` for the text of a
bracket.
-/

namespace LinearRegex

open CharSet

variable {c : Char}

/-- Whether a character belongs to an item of a bracket. -/
def BracketItem.Holds (unicode : Bool) (c : Char) : BracketItem → Prop
  | .char d => c = d
  | .range first last => first ≤ c ∧ c ≤ last
  | .escape e => e.contains c unicode = true
  | .named members negated => MemList c.toNat members ↔ negated = false

/-! ## What is added -/

namespace Bracket

variable {b : Bracket} {item : BracketItem} {items : List BracketItem} {e : ClassEscape}

theorem holds_iff (h : b.chars.Canonical) : b.holds c = true ↔
    Mem c.toNat b.chars ∨ ∃ e ∈ b.classes, e.contains c b.unicode = true := by
  unfold holds
  rw [Bool.or_eq_true, contains_iff h, List.any_eq_true]

theorem mem_insertAll_empty {ivs : List Interval} (h : ∀ iv ∈ ivs, iv.Proper) {code : Nat} :
    Mem code (empty.insertAll ivs) ↔ MemList code ivs :=
  (mem_insertAll canonical_empty h).trans (or_iff_left mem_empty)

/-- **A shorthand class that goes by ASCII** is written out as the code points it stands for. -/
theorem mem_asciiSet_iff : Mem c.toNat e.asciiSet ↔ e.contains c false = true := by
  have hmembers : Mem c.toNat (empty.insertAll e.cls.asciiIntervals) ↔
      e.cls.contains c false = true :=
    (mem_insertAll_empty proper_of_mem_asciiIntervals).trans CharClass.contains_ascii_iff.symm
  unfold ClassEscape.asciiSet ClassEscape.contains
  dsimp only
  cases e.positive with
  | true => rw [if_pos rfl, hmembers, beq_true]
  | false =>
    have hcanonical : (empty.insertAll e.cls.asciiIntervals).Canonical :=
      canonical_empty.insertAll proper_of_mem_asciiIntervals
    rw [if_neg Bool.false_ne_true, mem_compl hcanonical (toNat_le_maxCodePoint c), hmembers]
    simp

theorem holds_addSet_iff {s : CharSet} (h : b.chars.Canonical) (hs : s.Canonical) :
    (b.addSet s).holds c = true ↔ b.holds c = true ∨ Mem c.toNat s := by
  rw [holds_iff (h.union hs), holds_iff h, addSet, mem_union h hs, or_assoc]
  exact or_comm

theorem holds_addInterval_iff {iv : Interval} (h : b.chars.Canonical) (hiv : iv.Proper) :
    (b.addInterval iv).holds c = true ↔
      b.holds c = true ∨ iv.first ≤ c.toNat ∧ c.toNat ≤ iv.last := by
  rw [holds_iff (h.insert hiv), holds_iff h, addInterval, mem_insert h, or_assoc]
  exact or_comm

theorem holds_addClass_iff (h : b.chars.Canonical) :
    (b.addClass e).holds c = true ↔ b.holds c = true ∨ e.contains c b.unicode = true := by
  unfold addClass
  split
  · unfold holds
    rw [List.any_append, ← Bool.or_assoc, Bool.or_eq_true, List.any_cons, List.any_nil,
      Bool.or_false]
  · next hunicode =>
    rw [holds_addSet_iff h (canonical_asciiSet e), mem_asciiSet_iff, Bool.eq_false_iff.mpr hunicode]

/-- **An item adds what belongs to it.** -/
theorem holds_addItem_iff (h : b.chars.Canonical) (hitem : item.Valid) :
    (b.addItem item).holds c = true ↔ b.holds c = true ∨ item.Holds b.unicode c := by
  cases item with
  | char d =>
    refine (holds_addInterval_iff h ⟨Nat.le_refl _, toNat_le_maxCodePoint d⟩).trans ?_
    refine or_congr_right ⟨fun hd => ?_, ?_⟩
    · exact Char.toNat_inj.mp (Nat.le_antisymm hd.2 hd.1)
    · rintro rfl
      exact ⟨Nat.le_refl _, Nat.le_refl _⟩
  | range first last => exact holds_addInterval_iff h (proper_between hitem)
  | escape e => exact holds_addClass_iff h
  | named members negated =>
    have hset : (empty.insertAll members).Canonical := canonical_empty.insertAll hitem
    have hmembers : Mem c.toNat (empty.insertAll members) ↔ MemList c.toNat members :=
      mem_insertAll_empty hitem
    cases negated with
    | false =>
      refine (holds_addSet_iff h hset).trans (or_congr_right ?_)
      rw [hmembers]
      simp [BracketItem.Holds]
    | true =>
      refine (holds_addSet_iff h hset.compl).trans (or_congr_right ?_)
      rw [mem_compl hset (toNat_le_maxCodePoint c), hmembers]
      simp [BracketItem.Holds]

/-- **A bracket holds what belongs to one of its items.** -/
theorem holds_ofItems_iff {flags : Flags} {negated : Bool} (hitems : ∀ item ∈ items, item.Valid) :
    (ofItems flags negated items).holds c = true ↔
      ∃ item ∈ items, item.Holds flags.unicode c := by
  have hfold : ∀ {items : List BracketItem} {b : Bracket}, b.chars.Canonical →
      (∀ item ∈ items, item.Valid) → ((items.foldl addItem b).holds c = true ↔
        b.holds c = true ∨ ∃ item ∈ items, item.Holds b.unicode c) := by
    intro items
    induction items with
    | nil => simp
    | cons item items ih =>
      intro b h hitems
      obtain ⟨hitem, hitems⟩ := List.forall_mem_cons.mp hitems
      rw [List.foldl_cons, ih (canonical_addItem h hitem) hitems, holds_addItem_iff h hitem,
        (b.addItem_settings item).2.1, or_assoc]
      simp
  refine (hfold canonical_empty hitems).trans (or_iff_right ?_)
  rw [holds_iff canonical_empty]
  simp

theorem accepts_iff_of_not_ignoreCase (h : b.ignoreCase = false) :
    b.accepts c = true ↔ (b.holds c = true ↔ b.negated = false) := by
  unfold accepts
  rw [if_neg (by simp [h])]
  cases b.holds c <;> cases b.negated <;> simp

end Bracket

/-! ## The text of a bracket -/

theorem BracketItem.Spelled.valid {text : List Char} {negated : Bool} {items : List BracketItem}
    (h : Spelled text negated items) : ∀ item ∈ items, item.Valid := by
  have hreads : (⟨0, text⟩ : Source).Reads text ⟨Utf8.byteLength text, []⟩ :=
    ⟨(List.append_nil _).symm, (Nat.zero_add _).symm⟩
  exact Lexeme.next?_valid (next?_of_spelled h hreads) rfl

/-- Whether a bracket matches what belongs to one of some items or, if it is negated, what belongs
to none of them. -/
def Bracket.Denotes (b : Bracket) (unicode negated : Bool) (items : List BracketItem) : Prop :=
  ∀ c, b.accepts c = true ↔ ((∃ item ∈ items, item.Holds unicode c) ↔ negated = false)

theorem Bracket.denotes_ofItems {flags : Flags} (hcase : flags.ignoreCase = false) (negated : Bool)
    {items : List BracketItem} (hitems : ∀ item ∈ items, item.Valid) :
    (ofItems flags negated items).Denotes flags.unicode negated items := by
  intro c
  obtain ⟨hignore, hnegated⟩ := ofItems_settings flags negated items
  rw [accepts_iff_of_not_ignoreCase (hignore.trans hcase), holds_ofItems_iff hitems, hnegated]

namespace Pattern

variable {flags : Flags}

/-- **A bracket denotes the union of its items**, or what is outside if it is negated. What is
accepted in brackets, and read to a bracket, is spelled as one, and the bracket denotes the items
that are spelled. Whatever is spelled as a bracket is accepted. -/
theorem parse_bracket_denotes (hcase : flags.ignoreCase = false) :
    (∀ body pattern b, parse ("[" ++ body ++ "]") flags = .ok pattern →
      pattern.node = .bracket b → ∃ negated items,
        BracketItem.Spelled ("[" ++ body ++ "]").toList negated items ∧
          b.Denotes flags.unicode negated items) ∧
    ∀ p negated items, BracketItem.Spelled p.toList negated items → ∃ pattern b,
      parse p flags = .ok pattern ∧ pattern.node = .bracket b ∧
        b.Denotes flags.unicode negated items := by
  refine ⟨fun body pattern b h hnode => ?_, fun p negated items h => ?_⟩
  · obtain ⟨negated, items, hspelled⟩ := exists_spelled_of_parse h hnode
    obtain rfl := Except.ok.inj ((parse_of_spelled hspelled flags).symm.trans h)
    obtain rfl := Node.bracket.inj hnode
    exact ⟨negated, items, hspelled, Bracket.denotes_ofItems hcase negated hspelled.valid⟩
  · exact ⟨_, _, parse_of_spelled h flags, rfl, Bracket.denotes_ofItems hcase negated h.valid⟩

/-- A closing bracket in the first place, a range, and a class with a dash behind it. -/
theorem parse_bracket_denotes_dash : ({} : Flags).ignoreCase = false ∧
    ∃ pattern b, parse "[^]a-c\\d-]" {} = .ok pattern ∧ pattern.node = .bracket b ∧
      b.accepts 'd' = true ∧ b.accepts '-' = false ∧ b.accepts ']' = false := by
  have hdash : BracketItem.ItemsSpelled (['\\', 'd'] ++ ['-', ']'])
      [.escape ⟨.digits, true⟩, .char '-'] := .dash (.escape rfl)
  have hrange : BracketItem.ItemSpelled (['a'] ++ '-' :: ['c']) (some '\\') (.range 'a' 'c') :=
    .range (.plain (by decide) (by decide)) (.plain (by decide) (by decide)) (by decide)
  have hmarked : BracketItem.Spelled ('[' :: (Source.mark true '^' ++ Source.mark true ']' ++
      (['a'] ++ '-' :: ['c'] ++ (['\\', 'd'] ++ ['-', ']'])))) true _ :=
    .bracket (.item hrange hdash) (by simp) (by simp)
  have hspelled : BracketItem.Spelled "[^]a-c\\d-]".toList true
      [.char ']', .range 'a' 'c', .escape ⟨.digits, true⟩, .char '-'] := by
    simpa [Source.mark] using hmarked
  obtain ⟨-, hdenotes⟩ := @parse_bracket_denotes {} rfl
  obtain ⟨pattern, b, hparse, hnode, haccepts⟩ := hdenotes _ _ _ hspelled
  refine ⟨rfl, pattern, b, hparse, hnode, (haccepts 'd').mpr ?_, ?_, ?_⟩
  · simp [BracketItem.Holds]
    decide
  · rw [← Bool.not_eq_true, haccepts]
    simp [BracketItem.Holds]
  · rw [← Bool.not_eq_true, haccepts]
    simp [BracketItem.Holds]

end Pattern

end LinearRegex
