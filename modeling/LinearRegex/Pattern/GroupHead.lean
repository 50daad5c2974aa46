import LinearRegex.Pattern.Source
import LinearRegex.Pattern.Token

/-!
# Reading group heads

What follows an opening parenthesis and says what kind of group it opens: nothing, a name as in
`(?P<name>` or `(?<name>`, the colon of `(?:`, or flags as in `(?i-s:` and `(?i)`.
-/

namespace LinearRegex.GroupHead

open Source

/-- Whether a character may stand in a name. -/
def isNameChar (c : Char) : Bool := c.isAlphanum || c == '_'

/-- Whether some characters are a name: letters, digits and underscores, no digit in front. -/
def isName (cs : List Char) : Bool :=
  cs.all isNameChar && match cs with
    | [] => false
    | c :: _ => !c.isDigit

/-- Reads a name and the `>` after it. -/
def scanName (s : Source) : Except PatternError (GroupHead × Source) :=
  let (name, t) := s.span isNameChar
  match t.skip? '>' with
  | some u =>
    if isName name then .ok (.named (String.ofList name) s.offset, u)
    else .error ⟨.invalidGroupName, s.offset⟩
  | none => .error ⟨.invalidGroupName, s.offset⟩

/-- Reads flag letters up to `:` or `)`, given the changes read so far, the latest first; one `-`
may stand among them, and what follows it is switched off. -/
def scanFlags (on : Bool) (read : List FlagChange) (offset : Nat) :
    List Char → Except PatternError (GroupHead × Source)
  | [] => .error ⟨.unbalancedParenthesis, offset⟩
  | c :: cs =>
    let s : Source := ⟨offset + c.utf8Size, cs⟩
    if c = ':' then .ok (.scoped read.reverse, s)
    else if c = ')' then .ok (.flags read.reverse, s)
    else if c = '-' ∧ on then scanFlags false read s.offset cs
    else if (Flags.set? {} c on).isSome then scanFlags on (⟨c, on⟩ :: read) s.offset cs
    else .error ⟨.invalidGroupModifier, offset⟩

/-- Reads the head of a group, from behind its parenthesis. -/
def scan (s : Source) : Except PatternError (GroupHead × Source) :=
  match s.skip? '?' with
  | none => .ok (.capture, s)
  | some s =>
    match s.skipAll? ['P', '<'] with
    | some s => scanName s
    | none =>
      match s.skip? '<' with
      | some s => scanName s
      | none =>
        match s.skip? ':' with
        | some s => .ok (.plain, s)
        | none => scanFlags true [] s.offset s.rest

/-! ## Reading leaves no more than there was -/

theorem scanName_length {s t : Source} {head : GroupHead}
    (h : scanName s = .ok (head, t)) : t.rest.length ≤ s.rest.length := by
  unfold scanName at h
  dsimp only at h
  split at h
  · next u hu =>
    have := skip?_length hu
    have := span_length s isNameChar
    split at h
    · obtain ⟨-, rfl⟩ := Prod.mk.inj (Except.ok.inj h)
      omega
    · simp at h
  · simp at h

theorem scanFlags_length {on : Bool} {read : List FlagChange} {offset : Nat} {cs : List Char}
    {t : Source} {head : GroupHead} (h : scanFlags on read offset cs = .ok (head, t)) :
    t.rest.length ≤ cs.length := by
  induction cs generalizing on read offset with
  | nil => simp [scanFlags] at h
  | cons c cs ih =>
    unfold scanFlags at h
    dsimp only at h
    split at h
    · obtain ⟨-, rfl⟩ := Prod.mk.inj (Except.ok.inj h)
      exact Nat.le_succ _
    · split at h
      · obtain ⟨-, rfl⟩ := Prod.mk.inj (Except.ok.inj h)
        exact Nat.le_succ _
      · split at h
        · exact Nat.le_succ_of_le (ih h)
        · split at h
          · exact Nat.le_succ_of_le (ih h)
          · simp at h

theorem scan_length {s t : Source} {head : GroupHead} (h : scan s = .ok (head, t)) :
    t.rest.length ≤ s.rest.length := by
  unfold scan at h
  split at h
  · obtain ⟨-, rfl⟩ := Prod.mk.inj (Except.ok.inj h)
    exact Nat.le_refl _
  · next u hu =>
    have := skip?_length hu
    split at h
    · next v hv =>
      have := skipAll?_length hv
      have := scanName_length h
      simp only [List.length_cons] at *
      omega
    · split at h
      · next v hv =>
        have := skip?_length hv
        have := scanName_length h
        omega
      · split at h
        · next v hv =>
          have := skip?_length hv
          obtain ⟨-, rfl⟩ := Prod.mk.inj (Except.ok.inj h)
          omega
        · have := scanFlags_length h
          omega

end LinearRegex.GroupHead
