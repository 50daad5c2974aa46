import LinearRegex.Proofs.Bracket.Members

/-!
# A shorthand class at the end of a bracket

Where case is ignored, a bracket asks the whole orbit of a character, and so it does for the
shorthand classes in it. A shorthand class on its own never ignores case. The two come to the same
if the class has all characters of the orbit or none. By Unicode every class is like that; by ASCII
words are not, because `ı`, `ſ` and the Kelvin sign are no words and their variants are.

Main statements: `BracketItem.ItemsSpelled.widened_or` for the text of a bracket with a class added,
and `Pattern.parse_bracket_escape`.
-/

namespace LinearRegex

open Source

/-- How a shorthand class is spelled. -/
def ClassEscape.spelling : ClassEscape → String
  | ⟨.digits, true⟩ => "\\d"
  | ⟨.digits, false⟩ => "\\D"
  | ⟨.spaces, true⟩ => "\\s"
  | ⟨.spaces, false⟩ => "\\S"
  | ⟨.words, true⟩ => "\\w"
  | ⟨.words, false⟩ => "\\W"

theorem ClassEscape.exists_toList_spelling (e : ClassEscape) :
    ∃ letter, ofLetter? letter = some e ∧ e.spelling.toList = ['\\', letter] := by
  obtain ⟨cls, positive⟩ := e
  cases cls <;> cases positive
  · exact ⟨'D', rfl, rfl⟩
  · exact ⟨'d', rfl, rfl⟩
  · exact ⟨'S', rfl, rfl⟩
  · exact ⟨'s', rfl, rfl⟩
  · exact ⟨'W', rfl, rfl⟩
  · exact ⟨'w', rfl, rfl⟩

/-! ## The text with a class added -/

namespace BracketItem

variable {s t u v : Source} {o : Nat} {c letter : Char} {text cs : List Char} {a : Atom}
variable {e : ClassEscape} {err : PatternError} {items : List BracketItem}

/-- There is no range from an atom to a shorthand class. -/
theorem exists_scanItems_error (ha : a.Spelled text)
    (hletter : ClassEscape.ofLetter? letter = some e)
    (hs : s.Reads (text ++ ['-', '\\', letter]) t) :
    ∃ err, ∀ o read, scanItems o read s = .error err := by
  obtain ⟨c, ds, rfl, hclosing⟩ := ha.exists_cons
  obtain ⟨v, htext, hrange⟩ := hs.split
  obtain ⟨u, hc, hds⟩ := htext.split_cons
  obtain ⟨w, hdash, hescape⟩ := hrange.split_cons
  obtain ⟨x, hbackslash, hclass⟩ := hescape.split_cons
  have hnamed : c :: ds = ['['] → v.rest.head? ≠ some ':' := by
    rw [hdash.rest]
    simp
  have hatom : scanAtom w.offset '\\' x = .ok (.escape e, t) :=
    (scanAtom_eq_ok_iff (by decide)).mpr ⟨[letter], .escape hletter, hclass⟩
  have hnone : range? a (.escape e) = none := by cases a <;> rfl
  have hitem : scanItem s.offset c u = .error ⟨.invalidRange, s.offset⟩ := by
    rw [scanItem_atom ha hds hnamed]
    unfold scanAfterAtom
    rw [skip?_eq_some_iff.mpr hdash]
    dsimp only
    rw [next?_eq_some_iff.mpr hbackslash]
    dsimp only
    rw [if_neg (by decide), hatom]
    dsimp only
    rw [hnone]
  refine ⟨⟨.invalidRange, s.offset⟩, fun o read => ?_⟩
  rw [scanItems_eq_bind hc hclosing, hitem]
  rfl

/-- An item is spelled alike in front of a backslash. -/
theorem ItemSpelled.of_next {next next' : Option Char} {item : BracketItem}
    (h : ItemSpelled text next item) (hnext : next' = next ∨ next' = some '\\') :
    ItemSpelled text next' item := by
  rcases hnext with rfl | rfl
  · exact h
  · cases h with
    | named hname => exact .named hname
    | atom ha => exact .atom ha (by simp) (by simp)
    | range ha hb hle => exact .range ha hb hle

/-- What comes behind some items of a bracket, with a class added behind them. -/
theorem head?_widened (cs rest : List Char) :
    (cs ++ '\\' :: rest).head? = (cs ++ [']']).head? ∨ (cs ++ '\\' :: rest).head? = some '\\' := by
  cases cs with
  | nil => exact .inr rfl
  | cons c cs => exact .inl rfl

/-- The last character of a text that is put together is that of its second part. -/
theorem exists_append_singleton {rest : List Char} (h : cs ++ [c] = text ++ rest)
    (hrest : rest ≠ []) : ∃ more, rest = more ++ [c] ∧ cs = text ++ more := by
  obtain ⟨more, last, hlast⟩ := (List.eq_nil_or_concat rest).resolve_left hrest
  rw [hlast, List.concat_eq_append, ← List.append_assoc] at h
  obtain ⟨hcs, hc⟩ := List.append_inj' h rfl
  exact ⟨more, by rw [hlast, hc, List.concat_eq_append], hcs⟩

/-- **A class can be added to the items of a bracket**, or the last of them is a dash that would
make a range with it. -/
theorem ItemsSpelled.widened_or (hletter : ClassEscape.ofLetter? letter = some e)
    (h : ItemsSpelled (cs ++ [']']) items) :
    ItemsSpelled (cs ++ ['\\', letter, ']']) (items ++ [.escape e]) ∨
      ∀ s t, s.Reads (cs ++ ['\\', letter]) t →
        ∃ err, ∀ o read, scanItems o read s = .error err := by
  generalize htext : cs ++ [']'] = text at h
  induction h generalizing cs with
  | close =>
    obtain rfl : cs = [] := by simpa using htext
    have hescape : ItemsSpelled (['\\', letter] ++ [']']) [.escape e] :=
      .item (.atom (.escape hletter) (by simp) (by simp)) .close
    exact .inl hescape
  | @item text rest item items h more ih =>
    obtain ⟨cs, rfl, rfl⟩ := exists_append_singleton htext more.ne_nil
    rcases ih rfl with hitems | herror
    · rw [List.append_assoc]
      exact .inl (.item (h.of_next (head?_widened cs _)) hitems)
    · refine .inr fun s t hs => ?_
      rw [List.append_assoc] at hs
      obtain ⟨u, htext, hcs⟩ := hs.split
      obtain ⟨err, herr⟩ := herror u t hcs
      have hnext : ItemSpelled text u.rest.head? item := by
        refine h.of_next ?_
        rw [hcs.rest, List.append_assoc]
        exact head?_widened cs _
      refine ⟨err, fun o read => ?_⟩
      rw [scanItems_item (hnext.reads htext), herr]
  | @dash text a ha =>
    obtain ⟨more, hmore, rfl⟩ := exists_append_singleton htext (List.cons_ne_nil _ _)
    rw [show ['-', ']'] = ['-'] ++ [']'] from rfl] at hmore
    obtain rfl : more = ['-'] := (List.append_inj' hmore rfl).1.symm
    refine .inr fun s t hs => exists_scanItems_error ha hletter (s := s) (t := t) ?_
    rwa [List.append_assoc] at hs

/-- Where a class cannot be added to the items of a bracket, the bracket is not in order with it. -/
theorem exists_scan_error {closing : Bool}
    (hs : s.Reads (mark closing ']' ++ (cs ++ ['\\', letter])) t)
    (herror : ∀ u, u.Reads (cs ++ ['\\', letter]) t →
      ∃ err, ∀ o read, scanItems o read u = .error err)
    (hclosing : closing = false → (cs ++ ['\\', letter]).head? ≠ some ']')
    (hcaret : closing = false → (cs ++ ['\\', letter]).head? ≠ some '^') (o : Nat) :
    ∃ err, scan o s = .error err := by
  obtain ⟨u, hmark, hcs⟩ := hs.split
  obtain ⟨err, herr⟩ := herror u hcs
  have hopening : s.Reads (mark false '^') s := .refl s
  have hhead := hcs.head? (by simp)
  rw [← hhead] at hclosing hcaret
  exact ⟨err, by rw [scan_eq hopening hmark hclosing fun _ => hcaret, herr]⟩

end BracketItem

/-! ## What is matched without regard to case -/

namespace Bracket

variable {b : Bracket} {c : Char}

theorem accepts_iff_of_ignoreCase (h : b.ignoreCase = true) :
    b.accepts c = true ↔ ((∃ d ∈ CaseFold.orbit c, b.holds d = true) ↔ b.negated = false) := by
  have hheld : (b.holds c || (CaseFold.orbit c).any b.holds) = true ↔
      ∃ d ∈ CaseFold.orbit c, b.holds d = true := by
    rw [Bool.or_eq_true, List.any_eq_true]
    exact or_iff_right_of_imp fun hc => ⟨c, CaseFold.mem_orbit_iff.mpr rfl, hc⟩
  unfold accepts
  rw [if_pos h, ← hheld]
  cases b.holds c || (CaseFold.orbit c).any b.holds <;> cases b.negated <;> simp

/-- A bracket that ignores case, and goes by its items. -/
theorem accepts_ofItems_iff {flags : Flags} (hcase : flags.ignoreCase = true) (negated : Bool)
    {items : List BracketItem} (hitems : ∀ item ∈ items, item.Valid) :
    (ofItems flags negated items).accepts c = true ↔
      ((∃ d ∈ CaseFold.orbit c, ∃ item ∈ items, item.Holds flags.unicode d) ↔ negated = false) := by
  obtain ⟨hignore, hnegated⟩ := ofItems_settings flags negated items
  rw [accepts_iff_of_ignoreCase (hignore.trans hcase), hnegated]
  simp only [holds_ofItems_iff hitems]

end Bracket

namespace Pattern

variable {flags : Flags}

theorem parse_of_next?_error {p : String} {t : Source} {o : Nat} {err : PatternError}
    (h : Lexeme.next? (.ofString p) = some (⟨o, .error err⟩, t)) (flags : Flags) :
    parse p flags = .error err := by
  unfold parse
  rw [Reader.run_eq_foldlM, Lexeme.all_of_next?_eq_some h]
  rfl

/-- A bracket that is not in order is blamed. -/
theorem parse_of_scan_error {p : String} {t : Source} {err : PatternError}
    (hopening : (Source.ofString p).Reads ['['] t) (h : BracketItem.scan 0 t = .error err)
    (flags : Flags) : parse p flags = .error err := by
  refine parse_of_next?_error (t := t) (o := 0) ?_ flags
  have hscan : Token.scan 0 '[' t = .error err := h
  unfold Lexeme.next?
  rw [next?_eq_some_iff.mpr hopening]
  dsimp only [Source.ofString]
  rw [hscan]

theorem parse_spelling (e : ClassEscape) (flags : Flags) :
    parse e.spelling flags = .ok ⟨.ofEscape e flags, flags, #[none]⟩ := by
  obtain ⟨letter, hletter, hspelling⟩ := e.exists_toList_spelling
  have hscan : Token.scan 0 '\\' ⟨1, [letter]⟩ = .ok (.escape e, ⟨1 + letter.utf8Size, []⟩) := by
    show Token.scanEscape 0 ⟨1, [letter]⟩ = _
    unfold Token.scanEscape Source.next?
    dsimp only
    rw [hletter]
    rfl
  unfold parse Source.ofString
  rw [hspelling, Reader.run_of_next? (Lexeme.next?_of_scan hscan)
    (Reader.step_of_piece (r := { flags }) rfl _), Reader.run_nil]
  rfl

/-- **A class can be added to a bracket** if what comes of it is accepted, and then the bracket can
be negated as well. -/
theorem exists_spelled_widened {body : String} {pattern wider : Pattern} {b : Bracket}
    (hcaret : body.toList.head? ≠ some '^') (h : parse ("[" ++ body ++ "]") flags = .ok pattern)
    (hnode : pattern.node = .bracket b) (e : ClassEscape)
    (hwider : parse ("[" ++ body ++ e.spelling ++ "]") flags = .ok wider) : ∃ items,
      BracketItem.Spelled ("[" ++ body ++ "]").toList false items ∧
      BracketItem.Spelled ("[" ++ body ++ e.spelling ++ "]").toList false (items ++ [.escape e]) ∧
      BracketItem.Spelled ("[^" ++ body ++ e.spelling ++ "]").toList true
        (items ++ [.escape e]) := by
  obtain ⟨letter, hletter, hspelling⟩ := e.exists_toList_spelling
  obtain ⟨negated, items, hspelled⟩ := exists_spelled_of_parse h hnode
  have hchars : ("[" ++ body ++ "]").toList = '[' :: (body.toList ++ [']']) := by simp
  rw [hchars] at hspelled ⊢
  generalize htext : '[' :: (body.toList ++ [']']) = text at hspelled
  cases hspelled with
  | @bracket text items negated closing hitems hclosing hnegated =>
    obtain ⟨cs, rfl, hbody⟩ :=
      BracketItem.exists_append_singleton (List.cons.inj htext).2 hitems.ne_nil
    obtain rfl : negated = false := by
      cases negated with
      | false => rfl
      | true =>
        rw [hbody] at hcaret
        simp [mark] at hcaret
    have hhead : ∀ rest d, d ≠ '\\' → (cs ++ [']']).head? ≠ some d →
        (cs ++ '\\' :: rest).head? ≠ some d := by
      intro rest d hd hne
      rcases BracketItem.head?_widened cs rest with heq | heq
      · rwa [heq]
      · rw [heq]
        exact fun hsome => hd (Option.some.inj hsome).symm
    rcases hitems.widened_or hletter with hwidened | herror
    · have hspelled : ∀ negated, BracketItem.Spelled
          ('[' :: (mark negated '^' ++ mark closing ']' ++ (cs ++ ['\\', letter, ']']))) negated
          ((mark closing ']').map .char ++ (items ++ [.escape e])) := fun negated =>
        .bracket hwidened (fun habsent => hhead _ _ (by decide) (hclosing habsent))
          fun _ habsent => hhead _ _ (by decide) (hnegated rfl habsent)
      refine ⟨_, .bracket hitems hclosing hnegated, ?_, ?_⟩
      · rw [List.append_assoc]
        convert hspelled false using 1
        simp [hbody, hspelling, mark]
      · rw [List.append_assoc]
        convert hspelled true using 1
        simp [hbody, hspelling, mark]
    · have hsource : (Source.ofString ("[" ++ body ++ e.spelling ++ "]")).Reads
          (['['] ++ (mark closing ']' ++ (cs ++ ['\\', letter])))
          ⟨Utf8.byteLength (['['] ++ (mark closing ']' ++ (cs ++ ['\\', letter]))), [']']⟩ := by
        refine ⟨?_, (Nat.zero_add _).symm⟩
        unfold Source.ofString
        simp [hbody, hspelling, mark]
      obtain ⟨t, hopening, hbehind⟩ := hsource.split
      obtain ⟨err, hscan⟩ := BracketItem.exists_scan_error hbehind (fun u => herror u _)
        (fun habsent => hhead _ _ (by decide) (hclosing habsent))
        (fun habsent => hhead _ _ (by decide) (hnegated rfl habsent)) 0
      simp [parse_of_scan_error hopening hscan flags] at hwider

theorem accepts_ofEscape_iff {e : ClassEscape} {b : Bracket}
    (h : Node.ofEscape e flags = .bracket b) (c : Char) :
    b.accepts c = true ↔ e.contains c flags.unicode = true := by
  obtain rfl := Node.bracket.inj h
  have hdenotes : (Bracket.ofItems { flags with ignoreCase := false } false [.escape e]).Denotes
      flags.unicode false [.escape e] :=
    Bracket.denotes_ofItems rfl false (by simp [BracketItem.Valid])
  exact (hdenotes c).trans (by simp [BracketItem.Holds])

/-- **A shorthand class in a bracket that ignores case** stands for what it matches on its own, and
for the variants of that. With a class added behind its items, a bracket matches a character if it
does without, or if the class on its own matches a character with the same fold; and if it is
negated as well, just when it does not otherwise. By Unicode, or for digits and spaces, or where the
fold is none of `i`, `s` and `k`, it makes no difference whether the class on its own matches the
character itself or another one with the same fold. -/
theorem parse_bracket_escape (hcase : flags.ignoreCase = true) {body : String}
    {pattern wider : Pattern} {b : Bracket} (hcaret : body.toList.head? ≠ some '^')
    (h : parse ("[" ++ body ++ "]") flags = .ok pattern) (hnode : pattern.node = .bracket b)
    (e : ClassEscape) (hwider : parse ("[" ++ body ++ e.spelling ++ "]") flags = .ok wider) :
    ∃ negated alone bWider bNegated bAlone,
      parse ("[^" ++ body ++ e.spelling ++ "]") flags = .ok negated ∧
      parse e.spelling flags = .ok alone ∧ wider.node = .bracket bWider ∧
      negated.node = .bracket bNegated ∧ alone.node = .bracket bAlone ∧ ∀ c,
        (bWider.accepts c = true ↔
          b.accepts c = true ∨ ∃ d ∈ CaseFold.orbit c, bAlone.accepts d = true) ∧
        (bNegated.accepts c = true ↔
          ¬ (b.accepts c = true ∨ ∃ d ∈ CaseFold.orbit c, bAlone.accepts d = true)) ∧
        (flags.unicode = true ∨ e.cls ≠ .words ∨ CaseFold.fold c ∉ ['i', 's', 'k'] →
          ((∃ d ∈ CaseFold.orbit c, bAlone.accepts d = true) ↔ bAlone.accepts c = true)) := by
  obtain ⟨items, hspelled, hpositive, hnegated⟩ :=
    exists_spelled_widened hcaret h hnode e hwider
  obtain rfl := Except.ok.inj ((parse_of_spelled hspelled flags).symm.trans h)
  obtain rfl := Node.bracket.inj hnode
  obtain rfl := Except.ok.inj ((parse_of_spelled hpositive flags).symm.trans hwider)
  refine ⟨_, _, _, _, _, parse_of_spelled hnegated flags, parse_spelling e flags, rfl, rfl, rfl,
    fun c => ?_⟩
  have halone := @accepts_ofEscape_iff flags e _ rfl
  have hwiden : (∃ d ∈ CaseFold.orbit c, ∃ item ∈ items ++ [.escape e],
      item.Holds flags.unicode d) ↔
      (∃ d ∈ CaseFold.orbit c, ∃ item ∈ items, item.Holds flags.unicode d) ∨
        ∃ d ∈ CaseFold.orbit c, e.contains d flags.unicode = true := by
    simp only [List.mem_append, List.mem_singleton, or_and_right, exists_or, and_or_left,
      exists_eq_left]
    rfl
  refine ⟨?_, ?_, fun hsame => ?_⟩
  · rw [Bracket.accepts_ofItems_iff hcase false hpositive.valid,
      Bracket.accepts_ofItems_iff hcase false hspelled.valid, hwiden]
    simp [halone]
  · rw [Bracket.accepts_ofItems_iff hcase true hnegated.valid,
      Bracket.accepts_ofItems_iff hcase false hspelled.valid, hwiden]
    simp [halone]
  · simp only [halone]
    constructor
    · rintro ⟨d, hd, hcontains⟩
      rwa [← ClassEscape.contains_eq_of_fold hsame (CaseFold.mem_orbit_iff.mp hd)]
    · exact fun hcontains => ⟨c, CaseFold.mem_orbit_iff.mpr rfl, hcontains⟩

/-- By Unicode no word has a variant that is none. -/
theorem parse_bracket_escape_unicode : ∃ pattern wider alone b bWider bAlone,
    parse "[k]" { ignoreCase := true, unicode := true } = .ok pattern ∧
    parse "[k\\W]" { ignoreCase := true, unicode := true } = .ok wider ∧
    parse "\\W" { ignoreCase := true, unicode := true } = .ok alone ∧
    pattern.node = .bracket b ∧ wider.node = .bracket bWider ∧ alone.node = .bracket bAlone ∧
    ∀ c, bWider.accepts c = true ↔ b.accepts c = true ∨ bAlone.accepts c = true := by
  obtain ⟨pattern, b, h, hnode⟩ : ∃ pattern b,
      parse "[k]" { ignoreCase := true, unicode := true } = .ok pattern ∧
        pattern.node = .bracket b := by
    with_unfolding_all exact ⟨_, _, rfl, rfl⟩
  obtain ⟨wider, hwider⟩ : ∃ wider,
      parse "[k\\W]" { ignoreCase := true, unicode := true } = .ok wider := by
    with_unfolding_all exact ⟨_, rfl⟩
  obtain ⟨negated, alone, bWider, bNegated, bAlone, -, halone, hwide, -, hclass, haccepts⟩ :=
    @parse_bracket_escape { ignoreCase := true, unicode := true } rfl "k" pattern wider b
      (by simp) h hnode ⟨.words, false⟩ hwider
  refine ⟨pattern, wider, alone, b, bWider, bAlone, h, hwider, halone, hnode, hwide, hclass, ?_⟩
  intro c
  obtain ⟨hwiden, -, hsame⟩ := haccepts c
  rw [hwiden, hsame (.inl rfl)]

/-- By ASCII the Kelvin sign is no word, and so `k` is matched by the class in a bracket, though not
by the class on its own. -/
theorem parse_bracket_escape_kelvin : ∃ pattern wider alone b bWider bAlone,
    parse "[a]" { ignoreCase := true } = .ok pattern ∧
    parse "[a\\W]" { ignoreCase := true } = .ok wider ∧
    parse "\\W" { ignoreCase := true } = .ok alone ∧
    pattern.node = .bracket b ∧ wider.node = .bracket bWider ∧ alone.node = .bracket bAlone ∧
    bWider.accepts 'k' = true ∧ ¬ (b.accepts 'k' = true ∨ bAlone.accepts 'k' = true) := by
  have hnarrow : parse "[a]" { ignoreCase := true } =
      .ok ⟨.bracket (.ofItems { ignoreCase := true } false [.char 'a']), { ignoreCase := true },
        #[none]⟩ := by
    with_unfolding_all rfl
  have hwider : parse "[a\\W]" { ignoreCase := true } =
      .ok ⟨.bracket (.ofItems { ignoreCase := true } false
        [.char 'a', .escape ⟨.words, false⟩]), { ignoreCase := true }, #[none]⟩ := by
    with_unfolding_all rfl
  refine ⟨_, _, _, _, _, _, hnarrow, hwider, parse_spelling ⟨.words, false⟩ _, rfl, rfl, rfl, ?_,
    ?_⟩
  · rw [Bracket.accepts_ofItems_iff rfl false (by simp [BracketItem.Valid])]
    have hfold : CaseFold.fold '\u212A' = CaseFold.fold 'k' := by decide +kernel
    have hclass : (⟨.words, false⟩ : ClassEscape).contains '\u212A' false = true := by decide
    exact iff_of_true ⟨'\u212A', CaseFold.mem_orbit_iff.mpr hfold, .escape ⟨.words, false⟩,
      by simp, hclass⟩ rfl
  · rw [Bracket.accepts_ofItems_iff rfl false (by simp [BracketItem.Valid]),
      accepts_ofEscape_iff (e := ⟨.words, false⟩) rfl]
    rintro (hnarrow | halone)
    · obtain ⟨d, hd, item, hitem, hholds⟩ := hnarrow.mpr rfl
      obtain rfl := List.mem_singleton.mp hitem
      obtain rfl : d = 'a' := hholds
      exact absurd (CaseFold.mem_orbit_iff.mp hd) (by decide +kernel)
    · exact absurd halone (by decide)

end Pattern

end LinearRegex
