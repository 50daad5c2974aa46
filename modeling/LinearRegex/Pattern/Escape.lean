import LinearRegex.Pattern.Error
import LinearRegex.Pattern.Source

/-!
# Character escapes

What a backslash and the characters after it stand for when that is one character: a control
character by its letter, a code point by its hexadecimal digits, or a metacharacter itself.
-/

namespace LinearRegex.Escape

open Source

/-- The characters that have a meaning in patterns, and stand for themselves after a backslash. -/
def metacharacters : List Char :=
  ['\\', '.', '+', '*', '?', '(', ')', '|', '[', ']', '\x7b', '\x7d', '^', '$', '#', '&', '-', '~']

/-- The control character that a letter after a backslash stands for. -/
def control? : Char → Option Char
  | 'a' => some '\x07'
  | 'f' => some '\x0C'
  | 'n' => some '\n'
  | 'r' => some '\r'
  | 't' => some '\t'
  | 'v' => some '\x0B'
  | '0' => some '\x00'
  | _ => none

/-- The value of a hexadecimal digit. -/
def hexValue? (c : Char) : Option Nat :=
  if '0' ≤ c ∧ c ≤ '9' then some (c.toNat - '0'.toNat)
  else if 'a' ≤ c ∧ c ≤ 'f' then some (c.toNat - 'a'.toNat + 10)
  else if 'A' ≤ c ∧ c ≤ 'F' then some (c.toNat - 'A'.toNat + 10)
  else none

/-- Whether a character is a hexadecimal digit. -/
def isHexDigit (c : Char) : Bool := (hexValue? c).isSome

/-- The character with a code point written in hexadecimal, if there is one. -/
def charOfHex? (digits : List Char) : Option Char :=
  let code := digits.foldl (fun n d => n * 16 + (hexValue? d).getD 0) 0
  if code.isValidChar then some (Char.ofNat code) else none

/-- The most hexadecimal digits that may stand in braces. -/
def bracedDigits : Nat := 8

/-- Reads exactly `n` hexadecimal digits. -/
def hexDigits? : Nat → Source → Option (List Char × Source)
  | 0, s => some ([], s)
  | n + 1, s =>
    match s.next? with
    | none => none
    | some (c, s) =>
      if isHexDigit c then (hexDigits? n s).map fun (digits, s) => (c :: digits, s) else none

/-- Reads hexadecimal digits: from one to eight of them in braces, or `fixed` of them. -/
def hexChar? (fixed : Nat) (s : Source) : Option (Char × Source) :=
  match s.skip? '\x7b' with
  | some inner =>
    let (digits, s) := inner.span isHexDigit
    if 0 < digits.length ∧ digits.length ≤ bracedDigits then
      (s.skip? '\x7d').bind fun s => (charOfHex? digits).map fun c => (c, s)
    else none
  | none => (hexDigits? fixed s).bind fun (digits, s) => (charOfHex? digits).map fun c => (c, s)

/-- Reads what follows a backslash that begins at an offset and stands for one character. -/
def scanChar (backslash : Nat) (s : Source) : Except PatternError (Char × Source) :=
  match s.next? with
  | none => .error ⟨.incompleteEscape, backslash⟩
  | some (c, s) =>
    let hex (fixed : Nat) : Except PatternError (Char × Source) :=
      match hexChar? fixed s with
      | some result => .ok result
      | none => .error ⟨.invalidEscape, backslash⟩
    match control? c with
    | some d => .ok (d, s)
    | none =>
      if c = 'x' then hex 2
      else if c = 'u' then hex 4
      else if metacharacters.contains c || c = ' ' then .ok (c, s)
      else .error ⟨.invalidEscape, backslash⟩

/-! ## Reading leaves no more than there was -/

theorem hexDigits?_length {n : Nat} {s t : Source} {ds : List Char}
    (h : hexDigits? n s = some (ds, t)) : t.rest.length ≤ s.rest.length := by
  induction n generalizing s ds with
  | zero =>
    obtain ⟨-, rfl⟩ := Prod.mk.inj (Option.some.inj h)
    exact Nat.le_refl _
  | succ n ih =>
    unfold hexDigits? at h
    split at h
    · simp at h
    · next c u hu =>
      have := next?_length hu
      split at h
      · obtain ⟨⟨ds', v⟩, hv, hp⟩ := Option.map_eq_some_iff.mp h
        obtain ⟨-, rfl⟩ := Prod.mk.inj hp
        have := ih hv
        omega
      · simp at h

theorem hexChar?_length {n : Nat} {s t : Source} {c : Char}
    (h : hexChar? n s = some (c, t)) : t.rest.length ≤ s.rest.length := by
  unfold hexChar? at h
  split at h
  · next inner hi =>
    have := skip?_length hi
    have := span_length inner isHexDigit
    dsimp only at h
    split at h
    · obtain ⟨u, hu, hm⟩ := Option.bind_eq_some_iff.mp h
      obtain ⟨d, -, hp⟩ := Option.map_eq_some_iff.mp hm
      obtain ⟨-, rfl⟩ := Prod.mk.inj hp
      have := skip?_length hu
      omega
    · simp at h
  · obtain ⟨⟨ds, u⟩, hu, hm⟩ := Option.bind_eq_some_iff.mp h
    obtain ⟨d, -, hp⟩ := Option.map_eq_some_iff.mp hm
    obtain ⟨-, rfl⟩ := Prod.mk.inj hp
    exact hexDigits?_length hu

theorem scanChar_length {o : Nat} {s t : Source} {c : Char}
    (h : scanChar o s = .ok (c, t)) : t.rest.length < s.rest.length := by
  unfold scanChar at h
  split at h
  · simp at h
  · next d u hu =>
    have hlt := next?_length hu
    dsimp only at h
    have hex : ∀ n, (match hexChar? n u with
        | some result => Except.ok result
        | none => Except.error ⟨.invalidEscape, o⟩ : Except PatternError (Char × Source))
          = .ok (c, t) → t.rest.length < s.rest.length := by
      intro n hn
      split at hn
      · next r hr =>
        obtain rfl := Except.ok.inj hn
        have := hexChar?_length hr
        omega
      · simp at hn
    split at h
    · obtain ⟨-, rfl⟩ := Prod.mk.inj (Except.ok.inj h)
      omega
    · split at h
      · exact hex 2 h
      · split at h
        · exact hex 4 h
        · split at h
          · obtain ⟨-, rfl⟩ := Prod.mk.inj (Except.ok.inj h)
            omega
          · simp at h

end LinearRegex.Escape
