import LinearRegex.Proofs.Pattern.Enclosed

/-!
# Reading further on

A text that begins some bytes further on is cut into the same lexemes, or has the same faults, so
many bytes further on. Unlike in front of a closing parenthesis this holds of all texts, those with
faults among them, so each reading is told by an equation.

Main statements: `Lexeme.next?_shifted` for one lexeme and `Lexeme.all_shifted` for all of them.
-/

namespace LinearRegex

/-! ## What is read -/

/-- An error so many bytes further on. -/
def PatternError.shifted (d : Nat) (e : PatternError) : PatternError := ⟨e.fault, e.offset + d⟩

/-- A token so many bytes further on, with the head of the group that it opens. -/
def Token.shifted (d : Nat) : Token → Token
  | .opening (.error e) => .opening (.error (e.shifted d))
  | token => token.moved d

namespace Source

/-- The source so many bytes further on. -/
def shifted (d : Nat) (s : Source) : Source := ⟨s.offset + d, s.rest⟩

variable {d : Nat}

theorem behind_shifted (s : Source) (d : Nat) (c : Char) (cs : List Char) :
    (s.shifted d).behind c cs = (s.behind c cs).shifted d := by
  unfold shifted behind
  rw [Nat.add_right_comm]

theorem next?_shifted (s : Source) (d : Nat) :
    (s.shifted d).next? = s.next?.map fun (c, t) => (c, t.shifted d) := by
  obtain ⟨offset, rest⟩ := s
  cases rest with
  | nil => rfl
  | cons c cs => exact congrArg (fun t => some (c, t)) (behind_shifted ⟨offset, c :: cs⟩ d c cs)

theorem skip?_shifted (s : Source) (d : Nat) (c : Char) :
    (s.shifted d).skip? c = (s.skip? c).map (shifted d) := by
  obtain ⟨offset, rest⟩ := s
  cases rest with
  | nil => rfl
  | cons c' cs =>
    have hbehind := behind_shifted ⟨offset, c' :: cs⟩ d c' cs
    unfold skip?
    simp only [shifted]
    split
    · exact congrArg some hbehind
    · rfl

theorem accept_shifted (s : Source) (d : Nat) (c : Char) :
    (s.shifted d).accept c = ((s.accept c).1, (s.accept c).2.shifted d) := by
  unfold accept
  rw [skip?_shifted]
  cases s.skip? c <;> rfl

theorem skipAll?_shifted (s : Source) (d : Nat) (cs : List Char) :
    (s.shifted d).skipAll? cs = (s.skipAll? cs).map (shifted d) := by
  induction cs generalizing s with
  | nil => rfl
  | cons c cs ih =>
    unfold skipAll? at ih ⊢
    rw [List.foldlM_cons, List.foldlM_cons, skip?_shifted]
    cases s.skip? c with
    | none => rfl
    | some t => exact ih t

theorem spanFrom_shifted (p : Char → Bool) (offset d : Nat) (taken cs : List Char) :
    spanFrom p (offset + d) taken cs =
      ((spanFrom p offset taken cs).1, (spanFrom p offset taken cs).2.shifted d) := by
  induction cs generalizing offset taken with
  | nil => rfl
  | cons c cs ih =>
    rw [spanFrom, spanFrom]
    split
    · rw [Nat.add_right_comm]
      exact ih _ _
    · rfl

theorem span_shifted (s : Source) (d : Nat) (p : Char → Bool) :
    (s.shifted d).span p = ((s.span p).1, (s.span p).2.shifted d) :=
  spanFrom_shifted p s.offset d [] s.rest

/-- A result of reading so many bytes further on. -/
def resultShifted {α : Type} (d : Nat) (f : α → α) :
    Except PatternError (α × Source) → Except PatternError (α × Source)
  | .error e => .error (e.shifted d)
  | .ok (a, s) => .ok (f a, s.shifted d)

end Source

open Source

/-! ## Escapes -/

namespace Escape

theorem hexDigits?_shifted (n : Nat) (s : Source) (d : Nat) :
    hexDigits? n (s.shifted d) = (hexDigits? n s).map fun (digits, t) => (digits, t.shifted d) := by
  induction n generalizing s with
  | zero => rfl
  | succ n ih =>
    unfold hexDigits?
    rw [next?_shifted]
    cases s.next? with
    | none => rfl
    | some next =>
      obtain ⟨c, t⟩ := next
      dsimp only [Option.map_some]
      rw [ih]
      split
      · cases hexDigits? n t <;> rfl
      · rfl

theorem hexChar?_shifted (n : Nat) (s : Source) (d : Nat) :
    hexChar? n (s.shifted d) = (hexChar? n s).map fun (c, t) => (c, t.shifted d) := by
  unfold hexChar?
  rw [skip?_shifted]
  cases s.skip? '\x7b' with
  | none =>
    dsimp only [Option.map_none]
    rw [hexDigits?_shifted]
    cases hexDigits? n s with
    | none => rfl
    | some read =>
      dsimp only [Option.map_some, Option.bind_some]
      cases charOfHex? read.1 <;> rfl
  | some inner =>
    dsimp only [Option.map_some]
    rw [span_shifted]
    obtain ⟨digits, t⟩ := inner.span isHexDigit
    dsimp only
    rw [skip?_shifted]
    by_cases hlength : 0 < digits.length ∧ digits.length ≤ bracedDigits
    · rw [if_pos hlength, if_pos hlength]
      cases t.skip? '\x7d' with
      | none => rfl
      | some t =>
        dsimp only [Option.map_some, Option.bind_some]
        cases charOfHex? digits <;> rfl
    · rw [if_neg hlength, if_neg hlength]
      rfl

theorem scanChar_shifted (o : Nat) (s : Source) (d : Nat) :
    scanChar (o + d) (s.shifted d) = resultShifted d id (scanChar o s) := by
  unfold scanChar
  rw [next?_shifted]
  cases s.next? with
  | none => rfl
  | some next =>
    obtain ⟨c, t⟩ := next
    dsimp only [Option.map_some]
    cases control? c with
    | some c => rfl
    | none =>
      dsimp only
      rw [hexChar?_shifted, hexChar?_shifted]
      split
      · cases hexChar? 2 t <;> rfl
      · split
        · cases hexChar? 4 t <;> rfl
        · split <;> rfl

end Escape

/-! ## Brackets -/

namespace BracketItem

theorem scanAtom_shifted (o : Nat) (c : Char) (s : Source) (d : Nat) :
    scanAtom (o + d) c (s.shifted d) = resultShifted d id (scanAtom o c s) := by
  unfold scanAtom
  split
  · rw [next?_shifted]
    cases s.next? with
    | none => rfl
    | some next =>
      obtain ⟨c, t⟩ := next
      dsimp only [Option.map_some]
      cases ClassEscape.ofLetter? c with
      | some e => rfl
      | none =>
        dsimp only
        split
        · rfl
        · rw [Escape.scanChar_shifted]
          cases Escape.scanChar o s <;> rfl
  · rfl

theorem scanNamed_shifted (o : Nat) (s : Source) (d : Nat) :
    scanNamed (o + d) (s.shifted d) = resultShifted d id (scanNamed o s) := by
  unfold scanNamed
  rw [accept_shifted]
  obtain ⟨negated, t⟩ := s.accept '^'
  dsimp only
  rw [span_shifted]
  obtain ⟨name, u⟩ := t.span Char.isLower
  dsimp only
  rw [skipAll?_shifted]
  cases u.skipAll? [':', ']'] with
  | none => rfl
  | some v => cases CharSet.Ascii.named? (String.ofList name) <;> rfl

theorem scanAfterAtom_shifted (o : Nat) (a : Atom) (s : Source) (d : Nat) :
    scanAfterAtom (o + d) a (s.shifted d) = resultShifted d id (scanAfterAtom o a s) := by
  unfold scanAfterAtom
  rw [skip?_shifted]
  cases s.skip? '-' with
  | none => rfl
  | some t =>
    dsimp only [Option.map_some]
    rw [next?_shifted]
    cases t.next? with
    | none => rfl
    | some next =>
      obtain ⟨c, u⟩ := next
      dsimp only [Option.map_some]
      split
      · rfl
      · have hatom : scanAtom (t.shifted d).offset c (u.shifted d) =
            resultShifted d id (scanAtom t.offset c u) := scanAtom_shifted _ _ _ _
        rw [hatom]
        cases scanAtom t.offset c u with
        | error e => rfl
        | ok read =>
          obtain ⟨b, v⟩ := read
          dsimp only [resultShifted, id]
          cases range? a b <;> rfl

theorem scanItem_shifted (o : Nat) (c : Char) (s : Source) (d : Nat) :
    scanItem (o + d) c (s.shifted d) = resultShifted d id (scanItem o c s) := by
  have hnamed : (if c = '[' then (s.shifted d).skip? ':' else none) =
      (if c = '[' then s.skip? ':' else none).map (shifted d) := by
    split
    · exact skip?_shifted s d ':'
    · rfl
  unfold scanItem
  rw [hnamed]
  cases (if c = '[' then s.skip? ':' else none) with
  | some t =>
    dsimp only [Option.map_some]
    rw [scanNamed_shifted]
    cases scanNamed o t <;> rfl
  | none =>
    dsimp only [Option.map_none]
    rw [scanAtom_shifted]
    cases scanAtom o c s with
    | error e => rfl
    | ok read => exact scanAfterAtom_shifted o read.1 read.2 d

theorem scanItems_shifted (o : Nat) (read : List BracketItem) (s : Source) (d : Nat) :
    scanItems (o + d) read (s.shifted d) = resultShifted d id (scanItems o read s) := by
  fun_induction scanItems o read s with
  | case1 read s hs =>
    have hnext := next?_shifted s d
    rw [hs] at hnext
    rw [scanItems]
    split
    · rfl
    · next hsome => simp [hnext] at hsome
  | case2 read s u hs =>
    have hnext := next?_shifted s d
    rw [hs] at hnext
    rw [scanItems]
    split
    · next hnone => simp [hnext] at hnone
    · next hsome =>
      obtain ⟨rfl, rfl⟩ := Prod.mk.inj (Option.some.inj (hsome.symm.trans hnext))
      exact if_pos rfl
  | case3 read s c u hs hc e he =>
    have hnext := next?_shifted s d
    rw [hs] at hnext
    have hitem := scanItem_shifted s.offset c u d
    rw [he] at hitem
    rw [scanItems]
    split
    · next hnone => simp [hnext] at hnone
    · next hsome =>
      obtain ⟨rfl, rfl⟩ := Prod.mk.inj (Option.some.inj (hsome.symm.trans hnext))
      rw [if_neg hc]
      split
      · next herror =>
        obtain rfl := Except.error.inj (herror.symm.trans hitem)
        rfl
      · next hok => exact absurd (hok.symm.trans hitem) (by simp [resultShifted])
  | case4 read s c u hs hc items v hv ih =>
    have hnext := next?_shifted s d
    rw [hs] at hnext
    have hitem := scanItem_shifted s.offset c u d
    rw [hv] at hitem
    rw [scanItems]
    split
    · next hnone => simp [hnext] at hnone
    · next hsome =>
      obtain ⟨rfl, rfl⟩ := Prod.mk.inj (Option.some.inj (hsome.symm.trans hnext))
      rw [if_neg hc]
      split
      · next herror => exact absurd (herror.symm.trans hitem) (by simp [resultShifted])
      · next hok =>
        obtain ⟨rfl, rfl⟩ := Prod.mk.inj (Except.ok.inj (hok.symm.trans hitem))
        exact ih

theorem scan_shifted (o : Nat) (s : Source) (d : Nat) :
    scan (o + d) (s.shifted d) = resultShifted d (Token.shifted d) (scan o s) := by
  unfold scan
  rw [accept_shifted]
  obtain ⟨negated, t⟩ := s.accept '^'
  dsimp only
  rw [accept_shifted]
  obtain ⟨closing, u⟩ := t.accept ']'
  dsimp only
  rw [scanItems_shifted]
  cases scanItems o (if closing then [.char ']'] else []) u <;> rfl

end BracketItem

/-! ## Heads of groups -/

namespace GroupHead

theorem scanName_shifted (s : Source) (d : Nat) :
    scanName (s.shifted d) = resultShifted d (moved d) (scanName s) := by
  unfold scanName
  rw [span_shifted]
  obtain ⟨name, t⟩ := s.span isNameChar
  dsimp only
  rw [skip?_shifted]
  cases t.skip? '>' with
  | none => rfl
  | some u =>
    dsimp only [Option.map_some]
    split <;> rfl

theorem scanFlags_shifted (on : Bool) (read : List FlagChange) (o d : Nat) (cs : List Char) :
    scanFlags on read (o + d) cs = resultShifted d (moved d) (scanFlags on read o cs) := by
  induction cs generalizing on read o with
  | nil => rfl
  | cons c cs ih =>
    have hbehind : (⟨o + d + c.utf8Size, cs⟩ : Source) = Source.shifted d ⟨o + c.utf8Size, cs⟩ := by
      unfold shifted
      rw [Nat.add_right_comm]
    rw [scanFlags, scanFlags, hbehind]
    dsimp only
    rw [show (Source.shifted d ⟨o + c.utf8Size, cs⟩).offset = o + c.utf8Size + d from rfl, ih, ih]
    repeat' split
    all_goals rfl

theorem scan_shifted (s : Source) (d : Nat) :
    scan (s.shifted d) = resultShifted d (moved d) (scan s) := by
  unfold scan
  rw [skip?_shifted]
  cases s.skip? '?' with
  | none => rfl
  | some t =>
    dsimp only [Option.map_some]
    rw [skipAll?_shifted, skip?_shifted, skip?_shifted]
    cases t.skipAll? ['P', '<'] with
    | some u => exact scanName_shifted u d
    | none =>
      dsimp only [Option.map_none]
      cases t.skip? '<' with
      | some u => exact scanName_shifted u d
      | none =>
        dsimp only [Option.map_none]
        cases t.skip? ':' with
        | some u => rfl
        | none => exact scanFlags_shifted true [] t.offset d t.rest

end GroupHead

/-! ## Quantifiers -/

namespace Quantifier

theorem readCounts?_shifted (s : Source) (d : Nat) :
    readCounts? (s.shifted d) = (readCounts? s).map fun (q, t) => (q, t.shifted d) := by
  unfold readCounts?
  rw [span_shifted]
  obtain ⟨low, t⟩ := s.span Char.isDigit
  dsimp only
  rw [accept_shifted]
  obtain ⟨comma, u⟩ := t.accept ','
  dsimp only
  rw [span_shifted]
  obtain ⟨high, v⟩ := u.span fun c => comma && c.isDigit
  dsimp only
  rw [skip?_shifted]
  by_cases hlow : low.isEmpty = true
  · rw [if_pos hlow, if_pos hlow]
    rfl
  · rw [if_neg hlow, if_neg hlow]
    cases v.skip? '\x7d' <;> rfl

theorem scanCounts_shifted (o : Nat) (s : Source) (d : Nat) :
    scanCounts (o + d) (s.shifted d) = resultShifted d id (scanCounts o s) := by
  unfold scanCounts
  rw [readCounts?_shifted]
  cases readCounts? s with
  | none => rfl
  | some read =>
    obtain ⟨q, t⟩ := read
    dsimp only [Option.map_some]
    repeat' split
    all_goals rfl

theorem scanGreed_shifted (q : Quantifier) (s : Source) (d : Nat) :
    q.scanGreed (s.shifted d) = ((q.scanGreed s).1, (q.scanGreed s).2.shifted d) := by
  unfold scanGreed
  rw [accept_shifted]

end Quantifier

/-! ## Tokens -/

namespace Token

theorem scanEscape_shifted (o : Nat) (s : Source) (d : Nat) :
    scanEscape (o + d) (s.shifted d) = resultShifted d (shifted d) (scanEscape o s) := by
  unfold scanEscape
  rw [next?_shifted]
  cases s.next? with
  | none => rfl
  | some next =>
    obtain ⟨c, t⟩ := next
    dsimp only [Option.map_some]
    cases ClassEscape.ofLetter? c with
    | some e => rfl
    | none =>
      dsimp only
      rw [Escape.scanChar_shifted]
      -- The letters of the assertions, and then the escapes of characters.
      split
      · rfl
      · split
        · rfl
        · split
          · rfl
          · split
            · rfl
            · cases Escape.scanChar o s <;> rfl

theorem scan_shifted (o : Nat) (c : Char) (s : Source) (d : Nat) :
    scan (o + d) c (s.shifted d) = resultShifted d (shifted d) (scan o c s) := by
  unfold scan
  cases hsingle : single? c with
  | some token =>
    have hshifted : token.shifted d = token := by
      unfold single? at hsingle
      split at hsingle
      all_goals first
        | obtain rfl := Option.some.inj hsingle
          rfl
        | simp at hsingle
    dsimp only [resultShifted]
    rw [hshifted]
  | none =>
    cases quantifier? c with
    | some q =>
      dsimp only
      rw [Quantifier.scanGreed_shifted]
      rfl
    | none =>
      dsimp only
      rw [Quantifier.scanCounts_shifted, GroupHead.scan_shifted, BracketItem.scan_shifted,
        scanEscape_shifted]
      split
      · cases Quantifier.scanCounts o s with
        | error e => rfl
        | ok read =>
          obtain ⟨q, t⟩ := read
          dsimp only [resultShifted, id]
          rw [Quantifier.scanGreed_shifted]
          rfl
      · split
        · cases GroupHead.scan s <;> rfl
        · split
          · rfl
          · split
            · rfl
            · split <;> rfl

end Token

/-! ## Lexemes -/

namespace Lexeme

/-- A lexeme so many bytes further on, and what is wrong with it. -/
def shifted (d : Nat) (lx : Lexeme) : Lexeme where
  offset := lx.offset + d
  token := match lx.token with
    | .error e => .error (e.shifted d)
    | .ok token => .ok (token.shifted d)

/-- **A lexeme is read in the same way further on.** -/
theorem next?_shifted (s : Source) (d : Nat) :
    next? (s.shifted d) = (next? s).map fun (lx, t) => (lx.shifted d, t.shifted d) := by
  unfold next?
  rw [Source.next?_shifted]
  cases s.next? with
  | none => rfl
  | some next =>
    obtain ⟨c, t⟩ := next
    have hscan : Token.scan (s.shifted d).offset c (t.shifted d) =
        resultShifted d (Token.shifted d) (Token.scan s.offset c t) := Token.scan_shifted _ _ _ _
    dsimp only [Option.map_some]
    rw [hscan]
    cases Token.scan s.offset c t <;> rfl

/-- **A text is cut into the same lexemes further on.** -/
theorem all_shifted (s : Source) (d : Nat) : all (s.shifted d) = (all s).map (shifted d) := by
  fun_induction all s with
  | case1 s hs =>
    have hnext := next?_shifted s d
    rw [hs] at hnext
    exact all_of_next?_eq_none hnext
  | case2 s lx t hs ih =>
    have hnext := next?_shifted s d
    rw [hs] at hnext
    rw [all_of_next?_eq_some hnext, ih, List.map_cons]

end Lexeme

end LinearRegex
