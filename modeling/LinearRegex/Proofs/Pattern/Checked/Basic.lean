import LinearRegex.Pattern.Parser
import LinearRegex.Proofs.Pattern.Tokens

/-!
# Reading patterns with everything checked

Patterns read once more, by descent: an alternation reads its branches, a branch its pieces, a group
the alternation in it. Reading looks at the next character and takes it when it knows what it is,
counts the rounds of every loop and the alternations that it is in, adds up the values of digits in
words of 32 bits, and looks bars and names up in lists by their numbers. There is no result if the
character that is taken is not the next one, if a loop or the descent goes on for longer than it is
allowed, if a value does not fit, or if nothing is found in a list.

This module has the definitions, up to `Checked.parse`.
-/

namespace LinearRegex.Pattern.Checked

open Source

/-! ## Results -/

/-- What comes of reading: a result, what is wrong with the pattern, or nothing if something that is
taken for granted does not hold. -/
abbrev Reading (α : Type) := ExceptT PatternError Option α

/-- Something that is taken for granted does not hold. -/
def broken {α : Type} : Reading α := ExceptT.mk none

/-- The pattern is at fault. -/
def blame {α : Type} (fault : PatternFault) (offset : Nat) : Reading α := throw ⟨fault, offset⟩

/-- Takes a character that comes next. -/
def take (c : Char) (s : Source) : Reading Source :=
  match s.skip? c with
  | some t => pure t
  | none => broken

/-- The number of rounds of a loop that takes a character in every round but the last. -/
def rounds (s : Source) : Nat := s.rest.length + 1

/-! ## Numbers and names -/

/-- Takes characters while they pass a test. -/
def takeWhile (p : Char → Bool) : Nat → List Char → Source → Reading (List Char × Source)
  | 0, _, _ => broken
  | n + 1, taken, s =>
    match s.rest.head? with
    | none => pure (taken.reverse, s)
    | some c =>
      if p c then do
        let s ← take c s
        takeWhile p n (c :: taken) s
      else pure (taken.reverse, s)

/-- Reads a decimal number, given how many digits have been read and their value. There may be no
digit. -/
def decimal : Nat → Nat → Nat → Source → Reading (Option Nat × Source)
  | 0, _, _, _ => broken
  | n + 1, count, value, s =>
    let result : Option Nat := if 0 < count then some value else none
    match s.rest.head? with
    | none => pure (result, s)
    | some c =>
      if c.isDigit then do
        let s ← take c s
        decimal n (count + 1)
          (Nat.min (value * 10 + (c.toNat - '0'.toNat)) Quantifier.countCeiling) s
      else pure (result, s)

/-- Reads a hexadecimal number, in braces or of a fixed number of digits, given how many digits have
been read and their value. The value must fit into 32 bits at any time. -/
def hexadecimal (backslash fixed : Nat) (braced : Bool) :
    Nat → Nat → Nat → Source → Reading (Nat × Source)
  | 0, _, _, _ => broken
  | n + 1, count, value, s =>
    if !braced && count == fixed then pure (value, s)
    else
      match s.rest.head? with
      | none => blame .invalidEscape backslash
      | some c =>
        if braced && c == '\x7d' && 0 < count then do
          let s ← take '\x7d' s
          return (value, s)
        else if Escape.isHexDigit c && count < Escape.bracedDigits then do
          let s ← take c s
          let value := value * 16 + (Escape.hexValue? c).getD 0
          if value < UInt32.size then hexadecimal backslash fixed braced n (count + 1) value s
          else broken
        else blame .invalidEscape backslash

/-! ## Quantifiers -/

/-- Ends a counted repetition: the brace must close, and the bounds be in order and not too
large. -/
def closeCounts (start : Nat) (q : Quantifier) (s : Source) : Reading (Quantifier × Source) :=
  let (closed, s) := s.accept '\x7d'
  if !closed || !decide q.Ordered then blame .invalidQuantifier start
  else if ¬ q.Bounded then blame .repetitionTooLarge start
  else pure (q, s)

/-- Reads a counted repetition from its opening brace on. -/
def counts (s : Source) : Reading (Quantifier × Source) := do
  let start := s.offset
  let s ← take '\x7b' s
  let (low, s) ← decimal (rounds s) 0 0 s
  match low with
  | none => blame .invalidQuantifier start
  | some low =>
    let (comma, s) := s.accept ','
    let (high, s) ← if comma then decimal (rounds s) 0 0 s else pure (some low, s)
    closeCounts start ⟨low, high, true⟩ s

/-- Whether a quantifier is expected when a character comes next. -/
def beginsQuantifier (c : Char) : Bool := (Token.quantifier? c).isSome || c == '\x7b'

/-- Reads a quantifier, if one comes next. -/
def quantifier (s : Source) : Reading (Option Quantifier × Source) :=
  match s.next? with
  | none => pure (none, s)
  | some (c, t) =>
    let greed (q : Quantifier) (s : Source) : Option Quantifier × Source :=
      let (lazy, s) := s.accept '?'
      (some { q with greedy := !lazy }, s)
    match Token.quantifier? c with
    | some q => pure (greed q t)
    | none =>
      if c = '\x7b' then do
        let (q, s) ← counts s
        return greed q s
      else pure (none, s)

/-! ## Escapes -/

/-- Reads the hexadecimal digits that stand for a character. -/
def hexEscape (backslash fixed : Nat) (s : Source) : Reading (Char × Source) := do
  let (braced, s) := s.accept '\x7b'
  let (code, s) ← hexadecimal backslash fixed braced (rounds s) 0 0 s
  if code.isValidChar then pure (Char.ofNat code, s) else blame .invalidEscape backslash

/-- Reads what follows a backslash and stands for one character. -/
def charEscape (backslash : Nat) (s : Source) : Reading (Char × Source) :=
  match s.next? with
  | none => blame .incompleteEscape backslash
  | some (c, s) =>
    match Escape.control? c with
    | some d => pure (d, s)
    | none =>
      if c = 'x' then hexEscape backslash 2 s
      else if c = 'u' then hexEscape backslash 4 s
      else if Escape.metacharacters.contains c || c = ' ' then pure (c, s)
      else blame .invalidEscape backslash

/-- Reads what follows a backslash outside brackets. -/
def atomEscape (flags : Flags) (backslash : Nat) (s : Source) : Reading (Node × Source) :=
  match s.rest.head? with
  | none => blame .incompleteEscape backslash
  | some c =>
    match ClassEscape.ofLetter? c with
    | some e => do
      let s ← take c s
      return (.ofEscape e flags, s)
    | none =>
      if c = 'b' ∨ c = 'B' then do
        let s ← take c s
        return (.assertion (.wordBoundary (c == 'B') flags.unicode), s)
      else if c = 'A' then do
        let s ← take c s
        return (.assertion .textStart, s)
      else if c = 'z' then do
        let s ← take c s
        return (.assertion .textEnd, s)
      else do
        let (c, s) ← charEscape backslash s
        return (.literal c flags, s)

/-! ## Brackets -/

instance (iv : Interval) : Decidable iv.Proper :=
  decidable_of_iff (iv.first ≤ iv.last ∧ iv.last ≤ maxCodePoint)
    ⟨fun h => ⟨h.1, h.2⟩, fun h => ⟨h.ordered, h.bounded⟩⟩

instance (s : CharSet) : Decidable s.Canonical :=
  decidable_of_iff (s.intervals.toList.Pairwise (·.precedes · = true) ∧
      ∀ iv ∈ s.intervals.toList, iv.Proper)
    ⟨fun h => ⟨h.1, h.2⟩, fun h => ⟨h.sorted, h.proper⟩⟩

instance : ∀ item : BracketItem, Decidable item.Valid
  | .char _ => inferInstanceAs (Decidable True)
  | .range first last => inferInstanceAs (Decidable (first ≤ last))
  | .escape _ => inferInstanceAs (Decidable True)
  | .named members _ => inferInstanceAs (Decidable (∀ iv ∈ members, iv.Proper))

/-- Adds an item to a bracket. What is added must be in order, and so must the set be before and
after. -/
def addItem (b : Bracket) (item : BracketItem) : Reading Bracket :=
  if item.Valid ∧ b.chars.Canonical ∧ (b.addItem item).chars.Canonical then pure (b.addItem item)
  else broken

/-- Reads a named class, if one comes next. -/
def namedClass (s : Source) : Reading (Option BracketItem × Source) :=
  match s.skipAll? ['[', ':'] with
  | none => pure (none, s)
  | some t => do
    let (negated, t) := t.accept '^'
    let (name, t) ← takeWhile Char.isLower (rounds t) [] t
    match t.skipAll? [':', ']'], CharSet.Ascii.named? (String.ofList name) with
    | some t, some members => pure (some (.named members negated), t)
    | _, _ => blame .invalidNamedClass s.offset

/-- Reads a character or a class, if the bracket or the text does not end. -/
def bracketAtom (s : Source) : Reading (Option BracketItem.Atom × Source) :=
  let start := s.offset
  match s.rest.head? with
  | none => pure (none, s)
  | some c =>
    if c = ']' then pure (none, s)
    else if c = '\\' then do
      let s ← take '\\' s
      match s.rest.head? with
      | none => blame .incompleteEscape start
      | some d =>
        match ClassEscape.ofLetter? d with
        | some e =>
          let s ← take d s
          return (some (.escape e), s)
        | none =>
          if d = 'b' then
            let s ← take 'b' s
            return (some (.char '\x08'), s)
          else
            let (d, s) ← charEscape start s
            return (some (.char d), s)
    else do
      let s ← take c s
      return (some (.char c), s)

/-- Reads what follows a character or a class in a bracket, and adds what there is. -/
def bracketRest (start : Nat) (b : Bracket) (first : BracketItem.Atom) (s : Source) :
    Reading (Bracket × Source) :=
  if s.rest.head? ≠ some '-' then do
    let b ← addItem b first.item
    return (b, s)
  else do
    let s ← take '-' s
    let (second, s) ← bracketAtom s
    match second with
    | none =>
      let b ← addItem b first.item
      let b ← addItem b (.char '-')
      return (b, s)
    | some second =>
      match BracketItem.range? first second with
      | some item =>
        let b ← addItem b item
        return (b, s)
      | none => blame .invalidRange start

/-- Reads what comes next in a bracket and adds it. -/
def bracketPart (b : Bracket) (s : Source) : Reading (Bracket × Source) := do
  let start := s.offset
  let (named, s) ← namedClass s
  match named with
  | some item =>
    let b ← addItem b item
    return (b, s)
  | none =>
    let (first, s) ← bracketAtom s
    match first with
    | none => return (b, s)
    | some first => bracketRest start b first s

/-- Reads the rest of a bracket up to and with the closing `]`. -/
def bracketParts (start : Nat) : Nat → Bracket → Source → Reading (Bracket × Source)
  | 0, _, _ => broken
  | n + 1, b, s =>
    match s.rest.head? with
    | none => blame .unbalancedBracket start
    | some c =>
      if c = ']' then do
        let s ← take ']' s
        return (b, s)
      else do
        let (b, s) ← bracketPart b s
        bracketParts start n b s

/-- Reads a bracket from its `[` on. -/
def bracket (flags : Flags) (s : Source) : Reading (Node × Source) := do
  let start := s.offset
  let s ← take '[' s
  let (negated, s) := s.accept '^'
  let (closing, s) := s.accept ']'
  let b : Bracket := { negated, ignoreCase := flags.ignoreCase, unicode := flags.unicode }
  let b ← if closing then addItem b (.char ']') else pure b
  let (b, s) ← bracketParts start (rounds s) b s
  return (.bracket b, s)

/-! ## Heads of groups -/

/-- Reads the rest of a name and the `>` after it, given what has been read, the latest first. -/
def nameRest (start : Nat) : Nat → List Char → Source → Reading (List Char × Source)
  | 0, _, _ => broken
  | n + 1, taken, s =>
    match s.next? with
    | none => blame .invalidGroupName start
    | some (c, s) =>
      if c = '>' then pure (taken.reverse, s)
      else if c = '_' ∨ c.isAlpha ∨ c.isDigit ∧ taken ≠ [] then nameRest start n (c :: taken) s
      else blame .invalidGroupName start

/-- Reads the name of a group, which no group before may have. -/
def groupName (names : Array (Option String)) (s : Source) : Reading (String × Source) := do
  let start := s.offset
  let (name, s) ← nameRest start (rounds s) [] s
  if name = [] then blame .invalidGroupName start
  else if names.contains (some (String.ofList name)) then blame .duplicateGroupName start
  else pure (String.ofList name, s)

/-- Changes flags up to `:` or `)`, and tells whether there is a group. -/
def flagLetters : Nat → Bool → Flags → Source → Reading (Bool × Flags × Source)
  | 0, _, _, _ => broken
  | n + 1, on, flags, s =>
    match s.next? with
    | none => blame .unbalancedParenthesis s.offset
    | some (c, t) =>
      if c = ':' then pure (true, flags, t)
      else if c = ')' then pure (false, flags, t)
      else if c = '-' ∧ on then flagLetters n false flags t
      else
        match flags.set? c on with
        | some flags => flagLetters n on flags t
        | none => blame .invalidGroupModifier s.offset

/-- What an opening parenthesis opens. -/
inductive Kind where
  /-- A group that captures. -/
  | capture (name : Option String)
  /-- A group that only groups. -/
  | plain
  /-- No group, only flags. -/
  | flags

/-- Reads the head of a group, from behind its parenthesis: what is opened, and the flags in it. -/
def groupHead (names : Array (Option String)) (flags : Flags) (s : Source) :
    Reading (Kind × Flags × Source) :=
  let named (s : Source) : Reading (Kind × Flags × Source) := do
    let (name, s) ← groupName names s
    return (.capture (some name), flags, s)
  match s.skip? '?' with
  | none => pure (.capture none, flags, s)
  | some s =>
    match s.skipAll? ['P', '<'] with
    | some s => named s
    | none =>
      match s.skip? '<' with
      | some s => named s
      | none =>
        match s.skip? ':' with
        | some s => pure (.plain, flags, s)
        | none => do
          let (group, flags, s) ← flagLetters (rounds s) true flags s
          return (if group then .plain else .flags, flags, s)

/-! ## The descent -/

/-- The state of the descent. -/
structure State where
  source : Source
  flags : Flags
  names : Array (Option String) := #[none]
  /-- The number of groups that are open. -/
  depth : Nat := 0

/-- Reads a piece that is no group, given the character it begins with. -/
def atom (flags : Flags) (c : Char) (s : Source) : Reading (Node × Source) :=
  if c = '^' then do
    let s ← take '^' s
    return (.assertion (if flags.multiLine then .lineStart else .textStart), s)
  else if c = '$' then do
    let s ← take '$' s
    return (.assertion (if flags.multiLine then .lineEnd else .textEnd), s)
  else if c = '\\' then do
    let start := s.offset
    let s ← take '\\' s
    atomEscape flags start s
  else if c = '.' then do
    let s ← take '.' s
    return (if flags.dotAll then .any else .anyButNewline, s)
  else if c = '[' then bracket flags s
  else if c = ']' then blame .unbalancedBracket s.offset
  else if beginsQuantifier c then do
    let _ ← quantifier s
    blame .nothingToRepeat s.offset
  else do
    let s ← take c s
    return (.literal c flags, s)

section

-- How the alternation in a group is read.
variable (inner : State → Reading (Node × State))

/-- Reads the alternation in a group and the closing parenthesis. -/
def enclosed (start : Nat) (st : State) : Reading (Node × State) := do
  let (body, st) ← inner { st with depth := st.depth + 1 }
  if st.depth = 0 then broken
  else
    let (closed, s) := st.source.accept ')'
    if closed then pure (body, { st with source := s, depth := st.depth - 1 })
    else blame .unbalancedParenthesis start

/-- Reads a group, or flags that are changed, from the opening parenthesis on. -/
def group (st : State) : Reading (Option Node × State) := do
  let start := st.source.offset
  let s ← take '(' st.source
  if deepestNesting ≤ st.depth then blame .nestingTooDeep start
  else
    let (kind, flags, s) ← groupHead st.names st.flags s
    match kind with
    | .flags => return (none, { st with source := s, flags })
    | .plain =>
      let (body, st') ← enclosed inner start { st with source := s, flags }
      return (some body, { st' with flags := st.flags })
    | .capture name =>
      if mostGroups < st.names.size then blame .tooManyGroups start
      else
        let index := st.names.size
        let (body, st') ← enclosed inner start
          { st with source := s, flags, names := st.names.push name }
        match st'.names[index]? with
        | none => broken
        | some name => return (some (.group body index name), { st' with flags := st.flags })

/-- Reads a piece, given the character it begins with, or flags that are changed. -/
def piece (c : Char) (st : State) : Reading (Option Node × State) :=
  if c = '(' then group inner st
  else do
    let (n, s) ← atom st.flags c st.source
    return (some n, { st with source := s })

/-- Reads the rest of a branch, given the pieces that have been read, the latest first. -/
def row : Nat → List Node → State → Reading (Node × State)
  | 0, _, _ => broken
  | n + 1, pieces, st =>
    match st.source.rest.head? with
    | none => pure (.sequence pieces.reverse, st)
    | some c =>
      if c = ')' ∨ c = '|' then pure (.sequence pieces.reverse, st)
      else do
        let (piece, st) ← piece inner c st
        match piece with
        | none => row n pieces st
        | some piece =>
          let (q, s) ← quantifier st.source
          let piece := match q with
            | some q => .loop piece q
            | none => piece
          row n (piece :: pieces) { st with source := s }

/-- Reads the rest of an alternation, given the branches that have been read, the latest first, the
number of the first that is empty, and the offsets of the bars. -/
def branches : Nat → List Node → Option Nat → Array Nat → State → Reading (Node × State)
  | 0, _, _, _, _ => broken
  | n + 1, read, empty, bars, st => do
    let start := st.source.offset
    let (branch, st) ← row inner (rounds st.source) [] st
    let offset := st.source.offset
    let empty := if empty.isNone && offset == start then some read.length else empty
    let (more, s) := st.source.accept '|'
    if more then branches n (branch :: read) empty (bars.push offset) { st with source := s }
    else
      match empty, bars.isEmpty with
      | some index, false =>
        -- The bar before the empty branch is blamed, or the one behind it if there is none before.
        match bars[index - 1]? with
        | some offset => blame .emptyBranch offset
        | none => broken
      | _, _ => return (.choice (branch :: read).reverse, st)

end

/-- Reads an alternation, descending into so many at most. -/
def alternation : Nat → State → Reading (Node × State)
  | 0, _ => broken
  | n + 1, st => branches (alternation n) (rounds st.source) [] none #[] st

/-- Reads a pattern under some flags. Nothing but a closing parenthesis may be left behind it. -/
def parse (pattern : String) (flags : Flags) : Reading Pattern := do
  let (node, st) ← alternation (deepestNesting + 1) { source := .ofString pattern, flags }
  match st.source.rest.head? with
  | none => return ⟨node, st.flags, st.names⟩
  | some c => if c = ')' then blame .unbalancedParenthesis st.source.offset else broken

end LinearRegex.Pattern.Checked
