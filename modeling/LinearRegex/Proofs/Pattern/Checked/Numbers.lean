import LinearRegex.Proofs.Pattern.Checked.Basic
import LinearRegex.Proofs.Pattern.Places
import LinearRegex.Proofs.Pattern.Steps

/-!
# Numbers, quantifiers and escapes with everything checked

Where digits, quantifiers and escapes are read with everything checked, there is a result, and it is
that of the reading by lexemes. The values of digits fit because there are eight of them at most.

Main statements: `quantified`, `charEscape_eq` and `atomEscape_piece`.
-/

namespace LinearRegex.Pattern.Checked

open Source

variable {α β : Type} {s t : Source} {c : Char} {cs : List Char} {o n : Nat}

/-! ## There is a result -/

/-- A result that there is. -/
def sure (r : Except PatternError α) : Reading α := ExceptT.mk (some r)

theorem sure_bind (r : Except PatternError α) (f : α → Reading β) :
    sure r >>= f = match r with
      | .ok a => f a
      | .error e => sure (.error e) := by
  cases r <;> rfl

theorem take_cons (c : Char) (o : Nat) (cs : List Char) :
    take c ⟨o, c :: cs⟩ = pure ⟨o + c.utf8Size, cs⟩ := by
  unfold take skip?
  simp [behind]

theorem lt_rounds (s : Source) : s.rest.length < rounds s := Nat.lt_succ_self _

/-! ## Numbers and names are read -/

theorem takeWhile_eq {p : Char → Bool} {taken : List Char} (h : s.rest.length < n) :
    takeWhile p n taken s = pure (taken.reverse ++ (s.span p).1, (s.span p).2) := by
  induction n generalizing s taken with
  | zero => omega
  | succ n ih =>
    obtain ⟨o, cs⟩ := s
    cases cs with
    | nil => simp [takeWhile, span_nil]
    | cons c cs =>
      rw [takeWhile]
      dsimp only [List.head?_cons]
      by_cases hc : p c = true
      · rw [if_pos hc, take_cons, pure_bind, ih (Nat.lt_of_succ_lt_succ h), span_cons_pos hc]
        simp
      · rw [if_neg hc, span_cons_neg (by simpa using hc), List.append_nil]

theorem decimal_eq {count value : Nat} (h : s.rest.length < n) :
    decimal n count value s =
      pure (if 0 < count + (s.span Char.isDigit).1.length then
          some ((s.span Char.isDigit).1.foldl
            (fun n d => Nat.min (n * 10 + (d.toNat - '0'.toNat)) Quantifier.countCeiling) value)
        else none, (s.span Char.isDigit).2) := by
  induction n generalizing s count value with
  | zero => omega
  | succ n ih =>
    obtain ⟨o, cs⟩ := s
    cases cs with
    | nil => rfl
    | cons c cs =>
      rw [decimal]
      dsimp only [List.head?_cons]
      by_cases hc : c.isDigit = true
      · rw [if_pos hc, take_cons, pure_bind, ih (Nat.lt_of_succ_lt_succ h), span_cons_pos hc,
          if_pos (by omega), if_pos (by rw [List.length_cons]; omega), List.foldl_cons]
      · rw [if_neg hc, span_cons_neg (by simpa using hc)]
        rfl

/-- A number is read as the digits that come next. -/
theorem decimal_rounds (s : Source) :
    decimal (rounds s) 0 0 s =
      pure (if (s.span Char.isDigit).1.isEmpty then none
        else some (Quantifier.countOfDigits (s.span Char.isDigit).1),
        (s.span Char.isDigit).2) := by
  rw [decimal_eq (lt_rounds s)]
  cases (s.span Char.isDigit).1 with
  | nil => rfl
  | cons d ds => rfl

theorem closeCounts_eq (o : Nat) (q : Quantifier) (s : Source) :
    closeCounts o q s = sure (match (s.skip? '\x7d').map fun s => (q, s) with
      | none => .error ⟨.invalidQuantifier, o⟩
      | some (q, s) =>
        if ¬ q.Ordered then .error ⟨.invalidQuantifier, o⟩
        else if ¬ q.Bounded then .error ⟨.repetitionTooLarge, o⟩
        else .ok (q, s)) := by
  unfold closeCounts
  rcases accept_eq_or s '\x7d' with ⟨t, ht, heq⟩ | ⟨hnone, heq⟩
  · rw [heq, ht]
    by_cases hordered : q.Ordered
    · by_cases hbounded : q.Bounded <;> simp [hordered, hbounded] <;> rfl
    · simp [hordered]
      rfl
  · rw [heq, hnone]
    rfl

/-- **Counted repetitions** are read as they are by lexemes. -/
theorem counts_eq (o : Nat) (cs : List Char) :
    counts ⟨o, '\x7b' :: cs⟩ =
      sure (Quantifier.scanCounts o ⟨o + '\x7b'.utf8Size, cs⟩) := by
  unfold counts Quantifier.scanCounts Quantifier.readCounts?
  dsimp only
  rw [take_cons, pure_bind, decimal_rounds, pure_bind]
  obtain ⟨low, s⟩ := span ⟨o + '\x7b'.utf8Size, cs⟩ Char.isDigit
  cases low with
  | nil => rfl
  | cons d ds =>
    simp only [List.isEmpty_cons, Bool.false_eq_true, if_false]
    rcases accept_eq_or s ',' with ⟨t, -, heq⟩ | ⟨-, heq⟩
    · simp only [heq, if_true]
      rw [decimal_rounds, pure_bind]
      exact closeCounts_eq o _ _
    · have hnone : s.span (fun c => false && c.isDigit) = ([], s) := by
        obtain ⟨o, cs⟩ := s
        cases cs with
        | nil => rfl
        | cons c cs => exact span_cons_neg rfl o cs
      simp only [heq, hnone, Bool.false_eq_true, if_false]
      exact closeCounts_eq o _ _

/-- What comes of reading a quantifier: there is none, or it is the next lexeme. -/
inductive Quantified (s : Source) : Reading (Option Quantifier × Source) → Prop
  | none (h : ∀ c ∈ s.rest.head?, beginsQuantifier c = false) : Quantified s (pure (none, s))
  | fault {e : PatternError} {t : Source}
    (h : Lexeme.next? s = some (⟨s.offset, .error e⟩, t)) : Quantified s (sure (.error e))
  | some {q : Quantifier} {t : Source}
    (h : Lexeme.next? s = some (⟨s.offset, .ok (.quantifier q)⟩, t)) :
    Quantified s (pure (some q, t))

theorem single?_of_quantifier? {q : Quantifier} (h : Token.quantifier? c = some q) :
    Token.single? c = none := by
  unfold Token.quantifier? at h
  split at h
  · rfl
  · rfl
  · rfl
  · simp at h

theorem scan_brace (o : Nat) (s : Source) :
    Token.scan o '\x7b' s = match Quantifier.scanCounts o s with
      | .error e => .error e
      | .ok (q, s) => .ok (q.scanGreed s) := rfl

/-- **Quantifiers** are read as they are by lexemes. -/
theorem quantified (s : Source) : Quantified s (quantifier s) := by
  obtain ⟨o, rest⟩ := s
  cases rest with
  | nil => exact .none (by simp)
  | cons c cs =>
    unfold quantifier
    simp only [next?, behind]
    cases hq : Token.quantifier? c with
    | some q =>
      refine .some (Lexeme.next?_of_scan ?_)
      unfold Token.scan
      rw [single?_of_quantifier? hq, hq]
      rfl
    | none =>
      by_cases hc : c = '\x7b'
      · subst hc
        simp only [if_true, counts_eq, sure_bind]
        have hscan := scan_brace o ⟨o + '\x7b'.utf8Size, cs⟩
        cases hcounts : Quantifier.scanCounts o ⟨o + '\x7b'.utf8Size, cs⟩ with
        | error e =>
          rw [hcounts] at hscan
          exact .fault (Lexeme.next?_of_scan_error hscan)
        | ok q =>
          rw [hcounts] at hscan
          exact .some (Lexeme.next?_of_scan hscan)
      · simp only [if_neg hc]
        refine .none fun d hd => ?_
        obtain rfl := Option.some.inj hd
        simp [beginsQuantifier, hq, hc]

/-! ## Escapes are read -/

theorem hexValue_lt (c : Char) : (Escape.hexValue? c).getD 0 < 16 := by
  unfold Escape.hexValue?
  simp only [Char.le_def, UInt32.le_iff_toNat_le]
  have hval : c.val.toNat = c.toNat := rfl
  repeat' split
  all_goals simp only [Option.getD_some, Option.getD_none]
  · have : '9'.val.toNat = '0'.toNat + 9 := rfl
    omega
  · have : 'f'.val.toNat = 'a'.toNat + 5 := rfl
    omega
  · have : 'F'.val.toNat = 'A'.toNat + 5 := rfl
    omega
  · omega

/-- How many values so many hexadecimal digits have. -/
def hexValues : Nat → Nat
  | 0 => 1
  | n + 1 => hexValues n * 16

/-- One more digit leaves the value within those of so many digits, and within 32 bits. -/
theorem value_lt {count value : Nat} (hcount : count < Escape.bracedDigits)
    (hvalue : value < hexValues count) (c : Char) :
    value * 16 + (Escape.hexValue? c).getD 0 < hexValues (count + 1) ∧
      value * 16 + (Escape.hexValue? c).getD 0 < UInt32.size := by
  have hdigit := hexValue_lt c
  have hmore : value * 16 + (Escape.hexValue? c).getD 0 < hexValues (count + 1) := by
    rw [hexValues]
    omega
  have hword : ∀ k < Escape.bracedDigits, hexValues (k + 1) ≤ UInt32.size := by decide
  exact ⟨hmore, Nat.lt_of_lt_of_le hmore (hword count hcount)⟩

/-- The value of hexadecimal digits, behind digits of some value. -/
def valueFrom (value : Nat) (digits : List Char) : Nat :=
  digits.foldl (fun n d => n * 16 + (Escape.hexValue? d).getD 0) value

theorem hexDigits?_cons (k o : Nat) (c : Char) (cs : List Char) :
    Escape.hexDigits? (k + 1) ⟨o, c :: cs⟩ =
      if Escape.isHexDigit c then (Escape.hexDigits? k ⟨o + c.utf8Size, cs⟩).map
        fun (digits, s) => (c :: digits, s) else none := rfl

/-- A fixed number of hexadecimal digits, some of which have been read. -/
theorem hexadecimal_fixed {fixed count value : Nat} (hfixed : fixed ≤ Escape.bracedDigits)
    (hcount : count ≤ fixed) (hvalue : value < hexValues count) (h : s.rest.length < n) :
    hexadecimal o fixed false n count value s =
      sure (match Escape.hexDigits? (fixed - count) s with
        | some (ds, t) => .ok (valueFrom value ds, t)
        | none => .error ⟨.invalidEscape, o⟩) := by
  induction n generalizing count value s with
  | zero => omega
  | succ n ih =>
    rw [hexadecimal]
    by_cases heq : count = fixed
    · subst heq
      simp [Escape.hexDigits?]
      rfl
    · obtain ⟨k, hk⟩ : ∃ k, fixed - count = k + 1 := ⟨fixed - count - 1, by omega⟩
      have hlt : count < Escape.bracedDigits := by omega
      obtain ⟨o', cs⟩ := s
      cases cs with
      | nil => simp [heq, hk, Escape.hexDigits?, next?]; rfl
      | cons c cs =>
        rw [hk, hexDigits?_cons]
        simp only [Bool.not_false, Bool.true_and, beq_iff_eq, if_neg heq, List.head?_cons,
          Bool.false_and, Bool.false_eq_true, if_false, Bool.and_eq_true, decide_eq_true_eq, hlt,
          and_true]
        split
        · obtain ⟨hmore, hword⟩ := value_lt hlt hvalue c
          rw [take_cons, pure_bind, if_pos hword,
            ih (by omega) hmore (Nat.lt_of_succ_lt_succ h), show fixed - (count + 1) = k by omega]
          cases Escape.hexDigits? k ⟨o' + c.utf8Size, cs⟩ <;> rfl
        · rfl

/-- Hexadecimal digits in braces, some of which have been read. -/
theorem hexadecimal_braced {fixed count value : Nat} (hcount : count ≤ Escape.bracedDigits)
    (hvalue : value < hexValues count) (h : s.rest.length < n) :
    hexadecimal o fixed true n count value s =
      sure (if 0 < count + (s.span Escape.isHexDigit).1.length ∧
          count + (s.span Escape.isHexDigit).1.length ≤ Escape.bracedDigits then
        match (s.span Escape.isHexDigit).2.skip? '\x7d' with
        | some t => .ok (valueFrom value (s.span Escape.isHexDigit).1, t)
        | none => .error ⟨.invalidEscape, o⟩
        else .error ⟨.invalidEscape, o⟩) := by
  induction n generalizing count value s with
  | zero => omega
  | succ n ih =>
    rw [hexadecimal]
    obtain ⟨o', cs⟩ := s
    cases cs with
    | nil =>
      rw [span_nil]
      simp [skip?]
      rfl
    | cons c cs =>
      simp only [Bool.not_true, Bool.false_and, Bool.false_eq_true, if_false, List.head?_cons,
        Bool.true_and, Bool.and_eq_true, beq_iff_eq, decide_eq_true_eq]
      by_cases hc : Escape.isHexDigit c = true
      · have hne : c ≠ '\x7d' := by
          rintro rfl
          exact absurd hc (by decide)
        rw [if_neg (fun h => hne h.1), span_cons_pos hc]
        by_cases hlt : count < Escape.bracedDigits
        · obtain ⟨hmore, hword⟩ := value_lt hlt hvalue c
          rw [if_pos ⟨hc, hlt⟩, take_cons, pure_bind, if_pos hword,
            ih hlt hmore (Nat.lt_of_succ_lt_succ h)]
          rw [List.length_cons, Nat.add_comm _ 1, ← Nat.add_assoc]
          rfl
        · rw [if_neg (fun h => hlt h.2), if_neg]
          · rfl
          · rw [List.length_cons]
            omega
      · rw [span_cons_neg (by simpa using hc), if_neg (fun h : _ ∧ _ => hc h.1)]
        simp only [List.length_nil, Nat.add_zero, hcount, and_true, skip?]
        by_cases hclose : c = '\x7d'
        · subst hclose
          by_cases hpos : 0 < count
          · rw [if_pos ⟨rfl, hpos⟩, take_cons, if_pos hpos]
            rfl
          · rw [if_neg (fun h => hpos h.2), if_neg hpos]
            rfl
        · rw [if_neg (fun h => hclose h.1), if_neg hclose, ite_self]
          rfl

/-- A value is turned into the character that it is the code of. -/
theorem charOf_eq (digits : List Char) (o : Nat) (s : Source) :
    (if (valueFrom 0 digits).isValidChar then pure (Char.ofNat (valueFrom 0 digits), s)
      else blame .invalidEscape o : Reading (Char × Source)) =
      sure (match (Escape.charOfHex? digits).map fun c => (c, s) with
        | some result => .ok result
        | none => .error ⟨.invalidEscape, o⟩) := by
  have hchar : Escape.charOfHex? digits = if (valueFrom 0 digits).isValidChar then
      some (Char.ofNat (valueFrom 0 digits)) else none := rfl
  rw [hchar]
  split <;> rfl

theorem hexEscape_eq {fixed : Nat} (hfixed : fixed ≤ Escape.bracedDigits) (o : Nat) (s : Source) :
    hexEscape o fixed s = sure (match Escape.hexChar? fixed s with
      | some result => .ok result
      | none => .error ⟨.invalidEscape, o⟩) := by
  unfold hexEscape Escape.hexChar?
  rcases accept_eq_or s '\x7b' with ⟨t, ht, heq⟩ | ⟨hnone, heq⟩
  · simp only [heq, ht]
    rw [hexadecimal_braced (Nat.zero_le _) Nat.one_pos (lt_rounds t)]
    simp only [Nat.zero_add]
    split
    · cases (t.span Escape.isHexDigit).2.skip? '\x7d' with
      | none => rfl
      | some u => exact charOf_eq _ o u
    · rfl
  · simp only [heq, hnone]
    rw [hexadecimal_fixed hfixed (Nat.zero_le _) Nat.one_pos (lt_rounds s), Nat.sub_zero]
    cases Escape.hexDigits? fixed s with
    | none => rfl
    | some digits => exact charOf_eq digits.1 o digits.2

/-- **Escapes of characters** are read as they are by lexemes. -/
theorem charEscape_eq (o : Nat) (s : Source) : charEscape o s = sure (Escape.scanChar o s) := by
  unfold charEscape Escape.scanChar
  cases s.next? with
  | none => rfl
  | some next =>
    obtain ⟨c, t⟩ := next
    dsimp only
    cases Escape.control? c with
    | some d => rfl
    | none =>
      dsimp only
      rw [hexEscape_eq (by decide), hexEscape_eq (by decide)]
      split
      · rfl
      · split
        · rfl
        · split <;> rfl

/-- A piece that is read by a token, if nothing is wrong. -/
inductive Piece (flags : Flags) :
    Except PatternError (Token × Source) → Reading (Node × Source) → Prop
  | fault (e : PatternError) : Piece flags (.error e) (sure (.error e))
  | piece {token : Token} {n : Node} (h : pieceOf? flags token = some n) (s : Source) :
    Piece flags (.ok (token, s)) (pure (n, s))

/-- **Escapes outside brackets** are read as they are by lexemes. -/
theorem atomEscape_piece (flags : Flags) (o : Nat) (s : Source) :
    Piece flags (Token.scanEscape o s) (atomEscape flags o s) := by
  obtain ⟨o', cs⟩ := s
  cases cs with
  | nil => exact .fault _
  | cons c cs =>
    unfold Token.scanEscape atomEscape
    simp only [next?, behind, List.head?_cons, take_cons, pure_bind, charEscape_eq, sure_bind]
    cases ClassEscape.ofLetter? c with
    | some e => exact .piece rfl _
    | none =>
      dsimp only
      by_cases hb : c = 'b'
      · subst hb
        exact .piece rfl _
      by_cases hB : c = 'B'
      · subst hB
        exact .piece rfl _
      rw [if_neg hb, if_neg hB, if_neg (not_or_intro hb hB)]
      split
      · exact .piece rfl _
      · split
        · exact .piece rfl _
        · cases Escape.scanChar o ⟨o', c :: cs⟩ with
          | error e => exact .fault e
          | ok result => exact .piece rfl _

end LinearRegex.Pattern.Checked
