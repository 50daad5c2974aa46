import LinearRegex.Pattern.BracketItem
import LinearRegex.Pattern.GroupHead

/-!
# Lexemes

The cutting of a pattern into tokens, one at a time. A token never depends on flags or nesting, so
what a pattern is cut into is a matter of its characters alone.
-/

namespace LinearRegex

open Source

namespace Quantifier

/-- Reads the bounds of a counted repetition, from behind its opening brace to behind the closing
one: both bounds, or one that counts for both, or one and a comma when there is no upper bound. -/
def readCounts? (s : Source) : Option (Quantifier × Source) :=
  let (low, s) := s.span Char.isDigit
  let (comma, s) := s.accept ','
  let (high, s) := s.span fun c => comma && c.isDigit
  let max :=
    if !comma then some (countOfDigits low)
    else if high.isEmpty then none else some (countOfDigits high)
  if low.isEmpty then none
  else (s.skip? '\x7d').map fun s => (⟨countOfDigits low, max, true⟩, s)

/-- Reads a counted repetition, from behind its opening brace. Bounds in the wrong order are a
worse fault than bounds that are too large. -/
def scanCounts (start : Nat) (s : Source) : Except PatternError (Quantifier × Source) :=
  match readCounts? s with
  | none => .error ⟨.invalidQuantifier, start⟩
  | some (q, s) =>
    if ¬ q.Ordered then .error ⟨.invalidQuantifier, start⟩
    else if ¬ q.Bounded then .error ⟨.repetitionTooLarge, start⟩
    else .ok (q, s)

/-- Reads the mark that makes a quantifier prefer fewer repetitions. -/
def scanGreed (q : Quantifier) (s : Source) : Token × Source :=
  let (lazy, s) := s.accept '?'
  (.quantifier { q with greedy := !lazy }, s)

end Quantifier

namespace Token

/-- Reads what follows a backslash outside brackets. -/
def scanEscape (start : Nat) (s : Source) : Except PatternError (Token × Source) :=
  match s.next? with
  | none => .error ⟨.incompleteEscape, start⟩
  | some (c, t) =>
    match ClassEscape.ofLetter? c with
    | some e => .ok (.escape e, t)
    | none =>
      if c = 'b' then .ok (.wordBoundary false, t)
      else if c = 'B' then .ok (.wordBoundary true, t)
      else if c = 'A' then .ok (.textStart, t)
      else if c = 'z' then .ok (.textEnd, t)
      else
        match Escape.scanChar start s with
        | .error e => .error e
        | .ok (c, s) => .ok (.char c, s)

/-- The quantifier that a character alone stands for. -/
def quantifier? : Char → Option Quantifier
  | '*' => some ⟨0, none, true⟩
  | '+' => some ⟨1, none, true⟩
  | '?' => some ⟨0, some 1, true⟩
  | _ => none

/-- The token that a character alone stands for. -/
def single? : Char → Option Token
  | '^' => some .caret
  | '$' => some .dollar
  | '.' => some .dot
  | ')' => some .closing
  | '|' => some .bar
  | _ => none

/-- Reads a token, given the character it begins with and the offset of that. -/
def scan (start : Nat) (c : Char) (s : Source) : Except PatternError (Token × Source) :=
  match single? c, quantifier? c with
  | some token, _ => .ok (token, s)
  | none, some q => .ok (q.scanGreed s)
  | none, none =>
    if c = '\x7b' then
      match Quantifier.scanCounts start s with
      | .error e => .error e
      | .ok (q, s) => .ok (q.scanGreed s)
    else if c = '(' then
      match GroupHead.scan s with
      | .error e => .ok (.opening (.error e), s)
      | .ok (head, s) => .ok (.opening (.ok head), s)
    else if c = '[' then BracketItem.scan start s
    else if c = ']' then .error ⟨.unbalancedBracket, start⟩
    else if c = '\\' then scanEscape start s
    else .ok (.char c, s)

end Token

/-- The next lexeme and what follows it. -/
def Lexeme.next? (s : Source) : Option (Lexeme × Source) :=
  match s.next? with
  | none => none
  | some (c, t) =>
    match Token.scan s.offset c t with
    | .error e => some (⟨s.offset, .error e⟩, t)
    | .ok (token, u) => some (⟨s.offset, .ok token⟩, u)

/-! ## Reading leaves less than there was -/

theorem Quantifier.readCounts?_length {s t : Source} {q : Quantifier}
    (h : readCounts? s = some (q, t)) : t.rest.length ≤ s.rest.length := by
  unfold readCounts? at h
  dsimp only at h
  split at h
  · simp at h
  · obtain ⟨u, hu, hp⟩ := Option.map_eq_some_iff.mp h
    obtain ⟨-, rfl⟩ := Prod.mk.inj hp
    have h1 := span_length s Char.isDigit
    have h2 := accept_length (s.span Char.isDigit).2 ','
    have h3 := span_length ((s.span Char.isDigit).2.accept ',').2
      fun c => ((s.span Char.isDigit).2.accept ',').1 && c.isDigit
    have h4 := skip?_length hu
    omega

theorem Quantifier.scanCounts_length {o : Nat} {s t : Source} {q : Quantifier}
    (h : scanCounts o s = .ok (q, t)) : t.rest.length ≤ s.rest.length := by
  unfold scanCounts at h
  split at h
  · simp at h
  · next p u hu =>
    have := readCounts?_length hu
    repeat' split at h
    all_goals first
      | simp at h
        done
      | obtain ⟨-, rfl⟩ := Prod.mk.inj (Except.ok.inj h)
        exact this

theorem Quantifier.scanGreed_length (q : Quantifier) (s : Source) :
    (q.scanGreed s).2.rest.length ≤ s.rest.length := accept_length s '?'

theorem Token.scanEscape_length {o : Nat} {s t : Source} {token : Token}
    (h : scanEscape o s = .ok (token, t)) : t.rest.length ≤ s.rest.length := by
  unfold scanEscape at h
  split at h
  · simp at h
  · next c u hu =>
    have hlt := next?_length hu
    have taken : ∀ {x : Token}, Except.ok (x, u) = (Except.ok (token, t) : Except PatternError _) →
        t.rest.length ≤ s.rest.length := by
      intro x hx
      obtain ⟨-, rfl⟩ := Prod.mk.inj (Except.ok.inj hx)
      omega
    split at h
    · exact taken h
    · repeat' split at h
      any_goals exact taken h
      · simp at h
      · next d v hv =>
        obtain ⟨-, rfl⟩ := Prod.mk.inj (Except.ok.inj h)
        exact Nat.le_of_lt (Escape.scanChar_length hv)

theorem Token.scan_length {o : Nat} {c : Char} {s t : Source} {token : Token}
    (h : scan o c s = .ok (token, t)) : t.rest.length ≤ s.rest.length := by
  unfold scan at h
  split at h
  · obtain ⟨-, rfl⟩ := Prod.mk.inj (Except.ok.inj h)
    exact Nat.le_refl _
  · next q _ _ =>
    have := Quantifier.scanGreed_length q s
    rw [Except.ok.inj h] at this
    exact this
  · split at h
    · split at h
      · simp at h
      · next q u hu =>
        have h1 := Quantifier.scanCounts_length hu
        have h2 := Quantifier.scanGreed_length q u
        rw [Except.ok.inj h] at h2
        exact Nat.le_trans h2 h1
    · split at h
      · split at h
        · obtain ⟨-, rfl⟩ := Prod.mk.inj (Except.ok.inj h)
          exact Nat.le_refl _
        · next head u hu =>
          obtain ⟨-, rfl⟩ := Prod.mk.inj (Except.ok.inj h)
          exact GroupHead.scan_length hu
      · split at h
        · exact Nat.le_of_lt (BracketItem.scan_length h)
        · split at h
          · simp at h
          · split at h
            · exact Token.scanEscape_length h
            · obtain ⟨-, rfl⟩ := Prod.mk.inj (Except.ok.inj h)
              exact Nat.le_refl _

theorem Lexeme.next?_length {s t : Source} {lx : Lexeme} (h : Lexeme.next? s = some (lx, t)) :
    t.rest.length < s.rest.length := by
  unfold Lexeme.next? at h
  split at h
  · simp at h
  · next c u hu =>
    have hlt := Source.next?_length hu
    split at h
    · obtain ⟨-, rfl⟩ := Prod.mk.inj (Option.some.inj h)
      omega
    · next token v hv =>
      obtain ⟨-, rfl⟩ := Prod.mk.inj (Option.some.inj h)
      have := Token.scan_length hv
      omega

end LinearRegex
