import LinearRegex.Proofs.Pattern.Checked.Numbers
import LinearRegex.Proofs.Pattern.Written

/-!
# Brackets and heads of groups with everything checked

Where brackets, the heads of groups and all pieces that are no groups are read with everything
checked, there is a result, and it is that of the reading by lexemes. What is added to a bracket is
always in order.

Main statements: `bracket_piece`, `groupHead_headed` and `atom_single`.
-/

namespace LinearRegex.Pattern.Checked

open Source

variable {s : Source} {c : Char} {cs : List Char} {o n : Nat}

/-! ## Brackets are read -/

theorem addItem_eq {b : Bracket} {item : BracketItem} (hb : b.chars.Canonical)
    (hitem : item.Valid) : addItem b item = pure (b.addItem item) :=
  if_pos ⟨hitem, hb, Bracket.canonical_addItem hb hitem⟩

theorem namedClass_eq (o : Nat) (c : Char) (cs : List Char) :
    namedClass ⟨o, c :: cs⟩ =
      match (if c = '[' then skip? ⟨o + c.utf8Size, cs⟩ ':' else none) with
      | some t => sure ((BracketItem.scanNamed o t).map fun (item, u) => (some item, u))
      | none => pure (none, ⟨o, c :: cs⟩) := by
  have hskip : skipAll? ⟨o, c :: cs⟩ ['[', ':'] =
      if c = '[' then skip? ⟨o + c.utf8Size, cs⟩ ':' else none := by
    unfold skipAll?
    rw [List.foldlM_cons, skip?]
    dsimp only
    by_cases hc : c = '['
    · rw [if_pos hc, if_pos hc]
      exact bind_pure (skip? ⟨o + c.utf8Size, cs⟩ ':')
    · rw [if_neg hc, if_neg hc]
      rfl
  unfold namedClass BracketItem.scanNamed
  rw [hskip]
  split
  · next heq =>
    rw [heq]
  · next t heq =>
    rw [heq]
    dsimp only
    rw [takeWhile_eq (lt_rounds _), pure_bind]
    dsimp only [List.reverse_nil, List.nil_append]
    cases ((t.accept '^').2.span Char.isLower).2.skipAll? [':', ']'] with
    | none => rfl
    | some u =>
      cases CharSet.Ascii.named?
          (String.ofList ((t.accept '^').2.span Char.isLower).1) <;> rfl

theorem bracketAtom_eq {c : Char} (hc : c ≠ ']') (o : Nat) (cs : List Char) :
    bracketAtom ⟨o, c :: cs⟩ =
      sure ((BracketItem.scanAtom o c ⟨o + c.utf8Size, cs⟩).map fun (a, t) => (some a, t)) := by
  unfold bracketAtom BracketItem.scanAtom
  simp only [List.head?_cons, if_neg hc]
  by_cases hbackslash : c = '\\'
  · subst hbackslash
    rw [if_pos rfl, if_pos rfl, take_cons, pure_bind]
    cases cs with
    | nil => rfl
    | cons d ds =>
      simp only [List.head?_cons, next?, behind, take_cons, pure_bind, charEscape_eq, sure_bind]
      cases ClassEscape.ofLetter? d with
      | some e => rfl
      | none =>
        dsimp only
        by_cases hb : d = 'b'
        · subst hb
          rfl
        · rw [if_neg hb, if_neg hb]
          cases Escape.scanChar o ⟨o + '\\'.utf8Size, d :: ds⟩ <;> rfl
  · rw [if_neg hbackslash, if_neg hbackslash, take_cons]
    rfl

/-- At the end of the bracket or of the text there is nothing to read. -/
theorem bracketAtom_none (h : ∀ c ∈ s.rest.head?, c = ']') : bracketAtom s = pure (none, s) := by
  obtain ⟨o, cs⟩ := s
  cases cs with
  | nil => rfl
  | cons c cs =>
    obtain rfl := h c rfl
    rfl

/-- What follows a character or a class is read as it is by lexemes. -/
theorem bracketRest_eq {b : Bracket} (hb : b.chars.Canonical) (start : Nat)
    (first : BracketItem.Atom) (s : Source) :
    bracketRest start b first s =
      sure ((BracketItem.scanAfterAtom start first s).map fun (items, t) =>
        (items.foldl Bracket.addItem b, t)) := by
  have hvalid := BracketItem.item_valid first
  have hfirst := addItem_eq hb hvalid
  have hdash := addItem_eq (Bracket.canonical_addItem hb hvalid)
    (show BracketItem.Valid (.char '-') from trivial)
  unfold bracketRest BracketItem.scanAfterAtom
  obtain ⟨o, cs⟩ := s
  cases cs with
  | nil =>
    rw [hfirst]
    rfl
  | cons c cs =>
    by_cases hc : c = '-'
    · subst hc
      have hskip : skip? ⟨o, '-' :: cs⟩ '-' = some ⟨o + '-'.utf8Size, cs⟩ := rfl
      simp only [List.head?_cons, ne_eq, not_true_eq_false, if_false, take_cons, pure_bind, hskip]
      cases cs with
      | nil =>
        rw [bracketAtom_none (by simp), pure_bind]
        simp only [hfirst, hdash, pure_bind]
        rfl
      | cons d ds =>
        simp only [next?, behind]
        by_cases hd : d = ']'
        · subst hd
          rw [bracketAtom_none (by simp), pure_bind]
          simp only [hfirst, hdash, pure_bind]
          rfl
        · rw [bracketAtom_eq hd, sure_bind, if_neg hd]
          cases BracketItem.scanAtom (o + '-'.utf8Size) d ⟨o + '-'.utf8Size + d.utf8Size, ds⟩ with
          | error e => rfl
          | ok result =>
            obtain ⟨second, u⟩ := result
            dsimp only [Except.map]
            cases hrange : BracketItem.range? first second with
            | none => rfl
            | some item =>
              simp only [addItem_eq hb (BracketItem.range?_valid hrange), pure_bind]
              rfl
    · have hskip : skip? ⟨o, c :: cs⟩ '-' = none := if_neg hc
      simp only [List.head?_cons, ne_eq, Option.some.injEq, hc, not_false_eq_true, if_true, hfirst,
        pure_bind, hskip]
      rfl

/-- **One part of a bracket** is read as it is by lexemes. -/
theorem bracketPart_eq {c : Char} (hc : c ≠ ']') {b : Bracket} (hb : b.chars.Canonical) (o : Nat)
    (cs : List Char) :
    bracketPart b ⟨o, c :: cs⟩ =
      sure ((BracketItem.scanItem o c ⟨o + c.utf8Size, cs⟩).map fun (items, t) =>
        (items.foldl Bracket.addItem b, t)) := by
  unfold bracketPart BracketItem.scanItem
  rw [namedClass_eq]
  cases hnamed : (if c = '[' then skip? ⟨o + c.utf8Size, cs⟩ ':' else none) with
  | some t =>
    dsimp only
    rw [sure_bind]
    cases hitem : BracketItem.scanNamed o t with
    | error e => rfl
    | ok result =>
      have hvalid := BracketItem.scanNamed_valid hitem
      simp only [Except.map, addItem_eq hb hvalid, pure_bind]
      rfl
  | none =>
    dsimp only
    rw [pure_bind]
    dsimp only
    rw [bracketAtom_eq hc, sure_bind]
    cases BracketItem.scanAtom o c ⟨o + c.utf8Size, cs⟩ with
    | error e => rfl
    | ok result =>
      obtain ⟨first, s⟩ := result
      exact bracketRest_eq hb o first s

/-- The rest of a bracket, some items of which have been read and added. -/
theorem bracketParts_eq {b : Bracket} (hb : b.chars.Canonical) (start : Nat)
    {read : List BracketItem} (hread : ∀ item ∈ read, item.Valid) (h : s.rest.length < n) :
    bracketParts start n (read.reverse.foldl Bracket.addItem b) s =
      sure ((BracketItem.scanItems start read s).map fun (items, t) =>
        (items.foldl Bracket.addItem b, t)) := by
  induction n generalizing read s with
  | zero => omega
  | succ n ih =>
    obtain ⟨o, cs⟩ := s
    rw [bracketParts, BracketItem.scanItems]
    cases cs with
    | nil => rfl
    | cons c cs =>
      simp only [List.head?_cons, next?, behind]
      by_cases hc : c = ']'
      · subst hc
        rw [if_pos rfl, if_pos rfl, take_cons]
        rfl
      · have hcanonical : (read.reverse.foldl Bracket.addItem b).chars.Canonical :=
          Bracket.canonical_foldl_addItem hb
            fun item hitem => hread item (List.mem_reverse.mp hitem)
        rw [if_neg hc, if_neg hc, bracketPart_eq hc hcanonical, sure_bind]
        cases hitem : BracketItem.scanItem o c ⟨o + c.utf8Size, cs⟩ with
        | error e => rfl
        | ok result =>
          obtain ⟨items, t⟩ := result
          have hmore : ∀ item ∈ items.reverseAux read, item.Valid := by
            intro item hmem
            rw [List.reverseAux_eq, List.mem_append, List.mem_reverse] at hmem
            exact hmem.elim (BracketItem.scanItem_valid hitem item) (hread item)
          have hlength : t.rest.length < n :=
            Nat.lt_of_le_of_lt (BracketItem.scanItem_length hitem) (Nat.lt_of_succ_lt_succ h)
          have hrest := ih hmore hlength
          rw [List.reverseAux_eq, List.reverse_append, List.reverse_reverse,
            List.foldl_append, ← List.reverseAux_eq] at hrest
          exact hrest

theorem bracketParts_piece (flags : Flags) (negated : Bool) (o : Nat) (s : Source)
    {read : List BracketItem} (hread : ∀ item ∈ read, item.Valid) :
    Piece flags (match BracketItem.scanItems o read s with
        | .error e => .error e
        | .ok (items, s) => .ok (.bracket negated items, s))
      (do
        let (b, s) ← bracketParts o (rounds s) (.ofItems flags negated read.reverse) s
        return (.bracket b, s)) := by
  unfold Bracket.ofItems
  rw [bracketParts_eq CharSet.canonical_empty o hread (lt_rounds s), sure_bind]
  cases BracketItem.scanItems o read s with
  | error e => exact .fault e
  | ok result => exact .piece rfl _

/-- **Brackets** are read as they are by lexemes. -/
theorem bracket_piece (flags : Flags) (o : Nat) (cs : List Char) :
    Piece flags (BracketItem.scan o ⟨o + '['.utf8Size, cs⟩) (bracket flags ⟨o, '[' :: cs⟩) := by
  unfold bracket BracketItem.scan
  dsimp only
  rw [take_cons, pure_bind]
  obtain ⟨negated, s⟩ := accept ⟨o + '['.utf8Size, cs⟩ '^'
  dsimp only
  obtain ⟨closing, s⟩ := s.accept ']'
  cases closing with
  | false => exact bracketParts_piece flags negated o s (List.forall_mem_nil _)
  | true =>
    have hclosing : BracketItem.Valid (.char ']') := trivial
    simp only [if_true]
    rw [addItem_eq CharSet.canonical_empty hclosing, pure_bind]
    exact bracketParts_piece flags negated o s (List.forall_mem_singleton.mpr hclosing)

/-! ## Heads of groups are read -/

theorem isDigit_eq_false_of_isAlpha (h : c.isAlpha = true) : c.isDigit = false := by
  have halpha : c.isAlpha = (decide (c.val ≥ 'A'.val ∧ c.val ≤ 'Z'.val) ||
      decide (c.val ≥ 'a'.val) && decide (c.val ≤ 'z'.val)) := rfl
  have hdigit : c.isDigit = (decide (c.val ≥ '0'.val) && decide (c.val ≤ '9'.val)) := rfl
  rw [halpha] at h
  rw [hdigit]
  simp only [Bool.or_eq_true, Bool.and_eq_true, decide_eq_true_eq, UInt32.le_iff_toNat_le,
    ge_iff_le, Bool.and_eq_false_iff, decide_eq_false_iff_not] at h ⊢
  have h9 : '9'.val.toNat = 57 := rfl
  have hA : 'A'.val.toNat = 65 := rfl
  have ha : 'a'.val.toNat = 97 := rfl
  omega

theorem isNameChar_iff :
    GroupHead.isNameChar c = true ↔ c = '_' ∨ c.isAlpha = true ∨ c.isDigit = true := by
  simp only [GroupHead.isNameChar, Char.isAlphanum, Bool.or_eq_true, beq_iff_eq]
  exact or_comm

theorem isName_append_singleton {name : List Char} (h : GroupHead.isName name = true)
    (hc : GroupHead.isNameChar c = true) : GroupHead.isName (name ++ [c]) = true := by
  unfold GroupHead.isName at h ⊢
  cases name with
  | nil => simp at h
  | cons d ds =>
    simpa [hc] using h

/-- The rest of a name, the beginning of which has been read. -/
theorem nameRest_eq {taken : List Char} (start : Nat)
    (htaken : taken = [] ∨ GroupHead.isName taken.reverse = true) (h : s.rest.length < n) :
    nameRest start n taken s =
      sure (match (s.span GroupHead.isNameChar).2.skip? '>' with
        | some t =>
          if taken.reverse ++ (s.span GroupHead.isNameChar).1 = [] ∨
              GroupHead.isName (taken.reverse ++ (s.span GroupHead.isNameChar).1) = true then
            .ok (taken.reverse ++ (s.span GroupHead.isNameChar).1, t)
          else .error ⟨.invalidGroupName, start⟩
        | none => .error ⟨.invalidGroupName, start⟩) := by
  induction n generalizing taken s with
  | zero => omega
  | succ n ih =>
    rw [nameRest]
    obtain ⟨o, cs⟩ := s
    cases cs with
    | nil => rfl
    | cons c cs =>
      simp only [next?, behind]
      by_cases hclose : c = '>'
      · subst hclose
        have hname : taken.reverse = [] ∨ GroupHead.isName taken.reverse = true :=
          htaken.imp_left fun h => by rw [h]; rfl
        rw [if_pos rfl, span_cons_neg (by decide), List.append_nil]
        simp only [skip?, if_true, if_pos hname]
        rfl
      · rw [if_neg hclose]
        by_cases hc : c = '_' ∨ c.isAlpha ∨ c.isDigit ∧ taken ≠ []
        · have hchar : GroupHead.isNameChar c = true :=
            isNameChar_iff.mpr (hc.imp_right fun hc => hc.imp_right And.left)
          have hmore : GroupHead.isName (c :: taken).reverse = true := by
            rw [List.reverse_cons]
            rcases htaken with rfl | htaken
            · have hdigit : c.isDigit = false := by
                rcases hc with rfl | hc | hc
                · rfl
                · exact isDigit_eq_false_of_isAlpha hc
                · exact absurd rfl hc.2
              simp [GroupHead.isName, hchar, hdigit]
            · exact isName_append_singleton htaken hchar
          rw [if_pos hc, ih (.inr hmore) (Nat.lt_of_succ_lt_succ h), span_cons_pos hchar]
          simp only [List.reverse_cons, List.append_assoc, List.singleton_append]
        · rw [if_neg hc]
          by_cases hchar : GroupHead.isNameChar c = true
          · -- A digit cannot be the first character.
            obtain ⟨hne, halpha, hrest⟩ :
                c ≠ '_' ∧ ¬ c.isAlpha = true ∧ ¬ (c.isDigit = true ∧ taken ≠ []) := by
              simpa only [not_or] using hc
            have hdigit := ((isNameChar_iff.mp hchar).resolve_left hne).resolve_left halpha
            obtain rfl : taken = [] := Decidable.not_not.mp fun h => hrest ⟨hdigit, h⟩
            have hname : ∀ ds, GroupHead.isName (c :: ds) = false := by
              intro ds
              simp [GroupHead.isName, hdigit]
            rw [span_cons_pos hchar]
            simp only [List.reverse_nil, List.nil_append, reduceCtorEq, hname, Bool.false_eq_true,
              or_self, if_false]
            split <;> rfl
          · rw [span_cons_neg (by simpa using hchar)]
            simp only [skip?, if_neg hclose]
            rfl

/-- **Names of groups** are read as they are by lexemes, and must be new. -/
theorem groupName_eq (names : Array (Option String)) (s : Source) :
    (∃ e, GroupHead.scanName s = .error e ∧ groupName names s = sure (.error e)) ∨
    ∃ name t, GroupHead.scanName s = .ok (.named name s.offset, t) ∧
      groupName names s =
        if names.contains (some name) then blame .duplicateGroupName s.offset
        else pure (name, t) := by
  unfold groupName GroupHead.scanName
  dsimp only
  rw [nameRest_eq s.offset (.inl rfl) (lt_rounds s), sure_bind, List.reverse_nil, List.nil_append]
  obtain ⟨name, t⟩ := s.span GroupHead.isNameChar
  dsimp only
  cases t.skip? '>' with
  | none => exact .inl ⟨_, rfl, rfl⟩
  | some u =>
    dsimp only
    by_cases hname : GroupHead.isName name = true
    · have hne : name ≠ [] := by
        rintro rfl
        exact absurd hname (by decide)
      refine .inr ⟨String.ofList name, u, if_pos hname, ?_⟩
      rw [if_pos (.inr hname)]
      exact if_neg hne
    · refine .inl ⟨_, if_neg hname, ?_⟩
      by_cases hnil : name = []
      · rw [if_pos (.inl hnil)]
        exact if_pos hnil
      · rw [if_neg (not_or_intro hnil hname)]

/-- A letter names a flag or not, whatever flags are on. -/
theorem isSome_set? (flags : Flags) (c : Char) (on : Bool) :
    (Flags.set? {} c on).isSome = (flags.set? c on).isSome := by
  unfold Flags.set?
  split <;> rfl

/-- What is made of a head that only changes flags. -/
def changed (flags : Flags) : GroupHead → Bool × Flags
  | .scoped changes => (true, flags.change changes)
  | .flags changes => (false, flags.change changes)
  | _ => (false, flags)

/-- The rest of the letters that change flags, some of which have been read. -/
theorem flagLetters_eq (flags : Flags) (on : Bool) (read : List FlagChange) (h : cs.length < n) :
    flagLetters n on (flags.change read.reverse) ⟨o, cs⟩ =
        sure ((GroupHead.scanFlags on read o cs).map fun (head, t) =>
          ((changed flags head).1, (changed flags head).2, t)) ∧
      ∀ head t, GroupHead.scanFlags on read o cs = .ok (head, t) →
        ∃ changes, head = .scoped changes ∨ head = .flags changes := by
  induction n generalizing on read o cs with
  | zero => omega
  | succ n ih =>
    rw [flagLetters]
    cases cs with
    | nil => exact ⟨rfl, by simp [GroupHead.scanFlags]⟩
    | cons c cs =>
      have hlength := Nat.lt_of_succ_lt_succ h
      rw [GroupHead.scanFlags]
      simp only [next?, behind]
      by_cases hcolon : c = ':'
      · rw [if_pos hcolon, if_pos hcolon]
        refine ⟨rfl, fun head t h => ?_⟩
        exact ⟨_, .inl (Prod.mk.inj (Except.ok.inj h)).1.symm⟩
      rw [if_neg hcolon, if_neg hcolon]
      by_cases hclose : c = ')'
      · rw [if_pos hclose, if_pos hclose]
        refine ⟨rfl, fun head t h => ?_⟩
        exact ⟨_, .inr (Prod.mk.inj (Except.ok.inj h)).1.symm⟩
      rw [if_neg hclose, if_neg hclose]
      by_cases hdash : c = '-' ∧ on = true
      · rw [if_pos hdash, if_pos hdash]
        exact ih false read hlength
      rw [if_neg hdash, if_neg hdash, isSome_set? (flags.change read.reverse)]
      cases hset : (flags.change read.reverse).set? c on with
      | none => exact ⟨rfl, by simp⟩
      | some flags' =>
        have hchange : flags' = flags.change (⟨c, on⟩ :: read).reverse := by
          rw [List.reverse_cons, Flags.change_append]
          show flags' = ((flags.change read.reverse).set? c on).getD _
          rw [hset]
          rfl
        rw [hchange]
        exact ih on (⟨c, on⟩ :: read) hlength

/-- What comes of reading the head of a group: it is that of the lexeme, and a name in it is new. -/
inductive Headed (names : Array (Option String)) (flags : Flags) (s : Source) :
    Reading (Kind × Flags × Source) → Prop
  | fault {e : PatternError} (h : GroupHead.scan s = .error e) :
    Headed names flags s (sure (.error e))
  | duplicate {name : String} {o : Nat} {t : Source}
    (h : GroupHead.scan s = .ok (.named name o, t)) (hname : names.contains (some name) = true) :
    Headed names flags s (blame .duplicateGroupName o)
  | capture {t : Source} (h : GroupHead.scan s = .ok (.capture, t)) :
    Headed names flags s (pure (.capture none, flags, t))
  | named {name : String} {o : Nat} {t : Source} (h : GroupHead.scan s = .ok (.named name o, t))
    (hname : names.contains (some name) = false) :
    Headed names flags s (pure (.capture (some name), flags, t))
  | plain {t : Source} (h : GroupHead.scan s = .ok (.plain, t)) :
    Headed names flags s (pure (.plain, flags, t))
  | underFlags {changes : List FlagChange} {t : Source}
    (h : GroupHead.scan s = .ok (.scoped changes, t)) :
    Headed names flags s (pure (.plain, flags.change changes, t))
  | flags {changes : List FlagChange} {t : Source}
    (h : GroupHead.scan s = .ok (.flags changes, t)) :
    Headed names flags s (pure (.flags, flags.change changes, t))

/-- A name, which may come behind `?P<` or behind `?<`. -/
theorem headed_named {names : Array (Option String)} {flags : Flags} {t : Source}
    (hscan : GroupHead.scan s = GroupHead.scanName t) :
    Headed names flags s (do
      let (name, s) ← groupName names t
      return (.capture (some name), flags, s)) := by
  rcases groupName_eq names t with ⟨e, he, heq⟩ | ⟨name, u, hu, heq⟩
  · rw [heq]
    exact .fault (hscan.trans he)
  · rw [heq]
    cases hname : names.contains (some name) with
    | true => exact .duplicate (hscan.trans hu) hname
    | false => exact .named (hscan.trans hu) hname

/-- **Heads of groups** are read as they are by lexemes. -/
theorem groupHead_headed (names : Array (Option String)) (flags : Flags) (s : Source) :
    Headed names flags s (groupHead names flags s) := by
  unfold groupHead
  dsimp only
  have hscan : GroupHead.scan s = GroupHead.scan s := rfl
  conv at hscan => rhs; unfold GroupHead.scan
  cases hquestion : s.skip? '?' with
  | none =>
    rw [hquestion] at hscan
    exact .capture hscan
  | some t =>
    rw [hquestion] at hscan
    dsimp only at hscan ⊢
    cases hp : t.skipAll? ['P', '<'] with
    | some u =>
      rw [hp] at hscan
      exact headed_named hscan
    | none =>
      rw [hp] at hscan
      dsimp only at hscan ⊢
      cases hangle : t.skip? '<' with
      | some u =>
        rw [hangle] at hscan
        exact headed_named hscan
      | none =>
        rw [hangle] at hscan
        dsimp only at hscan ⊢
        cases hcolon : t.skip? ':' with
        | some u =>
          rw [hcolon] at hscan
          exact .plain hscan
        | none =>
          rw [hcolon] at hscan
          dsimp only at hscan ⊢
          obtain ⟨heq, hkind⟩ := flagLetters_eq flags true [] (lt_rounds t) (o := t.offset)
          have heq : flagLetters (rounds t) true flags t = _ := heq
          rw [heq, sure_bind]
          cases hflags : GroupHead.scanFlags true [] t.offset t.rest with
          | error e => exact .fault (hscan.trans hflags)
          | ok result =>
            obtain ⟨head, u⟩ := result
            obtain ⟨changes, rfl | rfl⟩ := hkind head u hflags
            · exact .underFlags (hscan.trans hflags)
            · exact .flags (hscan.trans hflags)

/-! ## Pieces are read -/

/-- What comes of reading a piece that is no group: it is the next lexeme, if that is no quantifier
and nothing is wrong with it. -/
inductive Single (flags : Flags) (s : Source) : Reading (Node × Source) → Prop
  | fault {e : PatternError} {t : Source}
    (h : Lexeme.next? s = some (⟨s.offset, .error e⟩, t)) : Single flags s (sure (.error e))
  | quantifier {q : Quantifier} {t : Source}
    (h : Lexeme.next? s = some (⟨s.offset, .ok (.quantifier q)⟩, t))
    (hc : ∀ c ∈ s.rest.head?, beginsQuantifier c = true) :
    Single flags s (blame .nothingToRepeat s.offset)
  | piece {token : Token} {n : Node} {t : Source}
    (h : Lexeme.next? s = some (⟨s.offset, .ok token⟩, t))
    (hn : pieceOf? flags token = some n) : Single flags s (pure (n, t))

theorem Piece.single {flags : Flags} {r : Except PatternError (Token × Source)}
    {x : Reading (Node × Source)} (h : Piece flags r x)
    (hscan : Token.scan o c ⟨o + c.utf8Size, cs⟩ = r) : Single flags ⟨o, c :: cs⟩ x := by
  cases h with
  | fault e => exact .fault (Lexeme.next?_of_scan_error hscan)
  | piece hn s => exact .piece (Lexeme.next?_of_scan hscan) hn

/-- **Pieces that are no groups** are read as they are by lexemes. -/
theorem atom_single (flags : Flags) {c : Char} (hopen : c ≠ '(') (hclosing : c ≠ ')')
    (hbar : c ≠ '|') (o : Nat) (cs : List Char) :
    Single flags ⟨o, c :: cs⟩ (atom flags c ⟨o, c :: cs⟩) := by
  have htake : ∀ n token, Token.scan o c ⟨o + c.utf8Size, cs⟩ = .ok (token, ⟨o + c.utf8Size, cs⟩) →
      pieceOf? flags token = some n → Single flags ⟨o, c :: cs⟩ (do
        let s ← take c ⟨o, c :: cs⟩
        return (n, s)) := by
    intro n token hscan hn
    rw [take_cons, pure_bind]
    exact (Piece.piece hn _).single hscan
  unfold atom
  by_cases hcaret : c = '^'
  · subst hcaret
    exact htake _ .caret rfl rfl
  rw [if_neg hcaret]
  by_cases hdollar : c = '$'
  · subst hdollar
    exact htake _ .dollar rfl rfl
  rw [if_neg hdollar]
  by_cases hbackslash : c = '\\'
  · subst hbackslash
    rw [if_pos rfl, take_cons, pure_bind]
    exact (atomEscape_piece flags o ⟨o + '\\'.utf8Size, cs⟩).single rfl
  rw [if_neg hbackslash]
  by_cases hdot : c = '.'
  · subst hdot
    exact htake _ .dot rfl rfl
  rw [if_neg hdot]
  by_cases hbracket : c = '['
  · subst hbracket
    exact (bracket_piece flags o cs).single rfl
  rw [if_neg hbracket]
  by_cases hclose : c = ']'
  · subst hclose
    exact (Piece.fault ⟨.unbalancedBracket, o⟩).single rfl
  rw [if_neg hclose]
  by_cases hbegins : beginsQuantifier c = true
  · rw [if_pos hbegins]
    have hhead : ∀ d ∈ (⟨o, c :: cs⟩ : Source).rest.head?, beginsQuantifier d = true :=
      fun d hd => Option.some.inj hd ▸ hbegins
    have hquantified := quantified ⟨o, c :: cs⟩
    generalize quantifier ⟨o, c :: cs⟩ = x at hquantified
    cases hquantified with
    | none h => exact absurd (hhead c rfl) (by simp [h c rfl])
    | fault h => exact .fault h
    | some h => exact .quantifier h hhead
  · rw [if_neg hbegins]
    have hsingle : Token.single? c = none := by
      unfold Token.single?
      split
      all_goals first | contradiction | rfl
    obtain ⟨hquantifier, hbrace⟩ : Token.quantifier? c = none ∧ c ≠ '\x7b' := by
      simpa [beginsQuantifier] using hbegins
    refine htake _ (.char c) (Token.scan_char hsingle hquantifier ?_ o _) rfl
    simp [hbrace, hopen, hbracket, hclose, hbackslash]

end LinearRegex.Pattern.Checked
