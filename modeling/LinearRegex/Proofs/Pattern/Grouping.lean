import LinearRegex.Proofs.Pattern.Surrounded
import LinearRegex.Text.Utf8

/-!
# Patterns put together

Patterns that are accepted can be grouped, put in a row, chosen between, repeated and read under
more flags, and what comes of it is put together of what they are read to on their own. Neither the
flags that are changed within a pattern nor its groups have an effect beyond the parentheses, but
for the numbers of the groups that follow.

Main statement: `parse_compositional`.
-/

namespace LinearRegex

open Utf8

/-! ## Heads of groups -/

/-- To switch on flags by their letters is to change them. -/
theorem Flags.change_letters (flags : Flags) (letters : List Char) :
    flags.change (letters.map (⟨·, true⟩)) = flags.enableAll letters := List.foldl_map

namespace GroupHead

/-- The letters of the flags. -/
def flagLetters : List Char := ['i', 'm', 's', 'u']

theorem flagLetters_spec {c : Char} (h : c ∈ flagLetters) :
    (∀ d ∈ [':', ')', '-', 'P', '<'], c ≠ d) ∧ (Flags.set? {} c true).isSome = true ∧
      c.utf8Size = 1 := by
  have hall : flagLetters.all (fun c => [':', ')', '-', 'P', '<'].all (c != ·) &&
      (Flags.set? {} c true).isSome && c.utf8Size == 1) = true := by decide
  simpa only [Bool.and_eq_true, List.all_eq_true, bne_iff_ne, beq_iff_eq, and_assoc] using
    List.all_eq_true.mp hall c h

/-- Letters of flags are read one after the other. -/
theorem scanFlags_letters {letters : List Char} (h : ∀ c ∈ letters, c ∈ flagLetters)
    (read : List FlagChange) (o : Nat) (cs : List Char) :
    scanFlags true read o (letters ++ cs) =
      scanFlags true ((letters.map (⟨·, true⟩)).reverse ++ read) (o + letters.length) cs := by
  induction letters generalizing read o with
  | nil => rfl
  | cons c letters ih =>
    obtain ⟨hc, hletters⟩ := List.forall_mem_cons.mp h
    obtain ⟨hne, hset, hsize⟩ := flagLetters_spec hc
    rw [List.cons_append, scanFlags]
    dsimp only
    rw [if_neg (hne ':' (by simp)), if_neg (hne ')' (by simp)),
      if_neg (fun h => hne '-' (by simp) h.1), if_pos hset, ih hletters, hsize, List.length_cons,
      List.map_cons, List.reverse_cons, List.append_assoc, Nat.add_assoc, Nat.add_comm 1]
    rfl

theorem scan_letters {letters : List Char} (h : ∀ c ∈ letters, c ∈ flagLetters)
    (hne : letters ≠ []) (o : Nat) (cs : List Char) :
    scan ⟨o, '?' :: (letters ++ cs)⟩ =
      scanFlags true (letters.map (⟨·, true⟩)).reverse (o + 1 + letters.length) cs := by
  obtain ⟨c, letters, rfl⟩ := List.exists_cons_of_ne_nil hne
  obtain ⟨hc, -⟩ := flagLetters_spec (h c List.mem_cons_self)
  have hflags := scanFlags_letters h [] (o + 1) cs
  rw [List.append_nil] at hflags
  rw [← hflags]
  unfold scan
  simp [Source.skip?, Source.skipAll?, Source.behind, hc 'P' (by simp), hc '<' (by simp),
    hc ':' (by simp)]
  rfl

/-- **The head of a group under flags** that are switched on. -/
theorem exists_scan_letters {letters : List Char} (h : ∀ c ∈ letters, c ∈ flagLetters) (o : Nat)
    (cs : List Char) : ∃ head o', scan ⟨o, '?' :: (letters ++ ':' :: cs)⟩ = .ok (head, ⟨o', cs⟩) ∧
      ∀ (r : Pattern.Reader) (o : Nat),
        r.opening o head = .ok (r.openGroup o (r.flags.enableAll letters)) := by
  by_cases hne : letters = []
  · subst hne
    exact ⟨.plain, _, rfl, fun r o => rfl⟩
  · refine ⟨.scoped (letters.map (⟨·, true⟩)), o + 1 + letters.length + 1, ?_, fun r o => ?_⟩
    · rw [scan_letters h hne, scanFlags, if_pos rfl, List.reverse_reverse]
      rfl
    · rw [← Flags.change_letters]
      rfl

end GroupHead

/-! ## Quantifiers -/

namespace Quantifier

/-- A number as it is written: decimal digits, at least one of them. -/
def IsNumber (digits : List Char) : Prop := digits ≠ [] ∧ ∀ c ∈ digits, c.isDigit = true

/-- The ways to write a quantifier that prefers more repetitions. -/
inductive Greedy : List Char → Quantifier → Prop
  | star : Greedy ['*'] ⟨0, none, true⟩
  | plus : Greedy ['+'] ⟨1, none, true⟩
  | question : Greedy ['?'] ⟨0, some 1, true⟩
  | exactly {digits : List Char} (h : IsNumber digits) :
    Greedy ('\x7b' :: (digits ++ ['\x7d']))
      ⟨countOfDigits digits, some (countOfDigits digits), true⟩
  | atLeast {digits : List Char} (h : IsNumber digits) :
    Greedy ('\x7b' :: (digits ++ [',', '\x7d'])) ⟨countOfDigits digits, none, true⟩
  | between {low high : List Char} (hlow : IsNumber low) (hhigh : IsNumber high) :
    Greedy ('\x7b' :: (low ++ ',' :: (high ++ ['\x7d'])))
      ⟨countOfDigits low, some (countOfDigits high), true⟩

/-- The ways to write a quantifier: with a `?` behind it fewer repetitions are preferred. -/
inductive Spelled : List Char → Quantifier → Prop
  | greedy {cs : List Char} {q : Quantifier} (h : Greedy cs q) : Spelled cs q
  | lazy {cs : List Char} {q : Quantifier} (h : Greedy cs q) :
    Spelled (cs ++ ['?']) { q with greedy := false }

/-- A span ends in front of a character that fails the test. -/
theorem span_append {p : Char → Bool} {cs rest : List Char} {c : Char}
    (hcs : ∀ c ∈ cs, p c = true) (hc : p c = false) (o : Nat) :
    Source.span ⟨o, cs ++ c :: rest⟩ p = (cs, ⟨o + byteLength cs, c :: rest⟩) := by
  have hspan : ∀ taken, Source.spanFrom p o taken (cs ++ c :: rest) =
      (taken.reverse ++ cs, ⟨o + byteLength cs, c :: rest⟩) := by
    induction cs generalizing o with
    | nil =>
      intro taken
      simp [Source.spanFrom, hc, byteLength]
    | cons c' cs ih =>
      intro taken
      obtain ⟨hc', hcs⟩ := List.forall_mem_cons.mp hcs
      rw [List.cons_append, Source.spanFrom, if_pos hc', ih hcs, List.reverse_cons,
        List.append_assoc]
      simp [byteLength, Nat.add_assoc]
  exact hspan []

/-- The bounds of a counted repetition are read as they are written. -/
theorem exists_readCounts? {cs : List Char} {q : Quantifier} (h : Greedy ('\x7b' :: cs) q) (o : Nat)
    (rest : List Char) : ∃ o', readCounts? ⟨o, cs ++ rest⟩ = some (q, ⟨o', rest⟩) := by
  -- What follows the first number: the closing brace, or a comma.
  have hclose : ∀ o (cs : List Char), Source.skip? ⟨o, '\x7d' :: cs⟩ '\x7d' = some ⟨o + 1, cs⟩ :=
    fun _ _ => rfl
  have hcomma : ∀ o (cs : List Char), Source.accept ⟨o, ',' :: cs⟩ ',' = (true, ⟨o + 1, cs⟩) :=
    fun _ _ => rfl
  have hnone : ∀ o (cs : List Char),
      Source.accept ⟨o, '\x7d' :: cs⟩ ',' = (false, ⟨o, '\x7d' :: cs⟩) := fun _ _ => rfl
  cases h with
  | @exactly digits h =>
    obtain ⟨hne, hdigits⟩ := h
    refine ⟨o + byteLength digits + 1, ?_⟩
    rw [List.append_assoc, List.singleton_append]
    unfold readCounts?
    rw [span_append hdigits (by decide)]
    dsimp only
    rw [hnone]
    simp [Source.span, Source.spanFrom, hclose, hne]
  | @atLeast digits h =>
    obtain ⟨hne, hdigits⟩ := h
    refine ⟨o + byteLength digits + 1 + 1, ?_⟩
    rw [List.append_assoc, List.cons_append, List.singleton_append]
    unfold readCounts?
    rw [span_append hdigits (by decide)]
    dsimp only
    rw [hcomma]
    simp [Source.span, Source.spanFrom, hclose, hne]
  | @between low high hlow hhigh =>
    obtain ⟨hne, hdigits⟩ := hlow
    obtain ⟨hne', hdigits'⟩ := hhigh
    refine ⟨o + byteLength low + 1 + byteLength high + 1, ?_⟩
    rw [List.append_assoc, List.cons_append, List.append_assoc, List.singleton_append]
    unfold readCounts?
    rw [span_append hdigits (by decide)]
    dsimp only
    rw [hcomma]
    rw [show (fun c : Char => true && c.isDigit) = Char.isDigit from rfl,
      span_append hdigits' (by decide)]
    simp [hclose, hne, hne']

theorem exists_scan_greedy {cs : List Char} {q : Quantifier} (h : Greedy cs q) (hq : q.Valid)
    (o : Nat) (rest : List Char) : ∃ c cs', cs = c :: cs' ∧
      ∃ o', Token.scan o c ⟨o + c.utf8Size, cs' ++ rest⟩ = .ok (q.scanGreed ⟨o', rest⟩) := by
  have counted : ∀ {cs : List Char}, Greedy ('\x7b' :: cs) q → ∃ o',
      Token.scan o '\x7b' ⟨o + '\x7b'.utf8Size, cs ++ rest⟩ = .ok (q.scanGreed ⟨o', rest⟩) := by
    intro cs hcs
    obtain ⟨o', hread⟩ := exists_readCounts? hcs (o + '\x7b'.utf8Size) rest
    have hcounts : scanCounts o ⟨o + '\x7b'.utf8Size, cs ++ rest⟩ = .ok (q, ⟨o', rest⟩) := by
      unfold scanCounts
      rw [hread]
      dsimp only
      rw [if_neg (Decidable.not_not.mpr hq.1), if_neg (Decidable.not_not.mpr hq.2)]
    refine ⟨o', ?_⟩
    unfold Token.scan
    rw [show Token.single? '\x7b' = none from rfl, show Token.quantifier? '\x7b' = none from rfl]
    dsimp only
    rw [if_pos rfl, hcounts]
  cases h with
  | star => exact ⟨'*', [], rfl, _, rfl⟩
  | plus => exact ⟨'+', [], rfl, _, rfl⟩
  | question => exact ⟨'?', [], rfl, _, rfl⟩
  | exactly h => exact ⟨_, _, rfl, counted (.exactly h)⟩
  | atLeast h => exact ⟨_, _, rfl, counted (.atLeast h)⟩
  | between hlow hhigh => exact ⟨_, _, rfl, counted (.between hlow hhigh)⟩

theorem Greedy.greedy_eq {cs : List Char} {q : Quantifier} (h : Greedy cs q) : q.greedy = true := by
  cases h <;> rfl

/-- **A quantifier that is written out is one lexeme.** -/
theorem exists_next?_spelled {cs : List Char} {q : Quantifier} (h : Spelled cs q) (hq : q.Valid)
    (o : Nat) : ∃ o', Lexeme.next? ⟨o, cs⟩ = some (⟨o, .ok (.quantifier q)⟩, ⟨o', []⟩) := by
  cases h with
  | greedy h =>
    obtain ⟨c, cs', rfl, o', hscan⟩ := exists_scan_greedy h hq o []
    have hgreedy := h.greedy_eq
    obtain ⟨min, max, greedy⟩ := q
    obtain rfl : greedy = true := hgreedy
    rw [List.append_nil] at hscan
    exact ⟨o', Lexeme.next?_of_scan hscan⟩
  | @lazy cs q h =>
    have hq : q.Valid := hq
    obtain ⟨c, cs', rfl, o', hscan⟩ := exists_scan_greedy h hq o ['?']
    exact ⟨o' + 1, Lexeme.next?_of_scan hscan⟩

end Quantifier

namespace Pattern

/-! ## Groups -/

namespace Reader

variable {r : Reader} {source : String} {pattern : Pattern} {o : Nat} {more : List Char}

/-- The reader behind a group that does not capture. -/
def grouped (r : Reader) (pattern : Pattern) : Reader :=
  { r with
    names := r.names ++ pattern.groupNames.extract 1
    branches := r.branches.push (pattern.node.renumber (r.names.size - 1)) }

/-- **A group under more flags** becomes the piece that its pattern is read to under them, and
leaves the flags as they were. -/
theorem run_group {letters : List Char} (hletters : ∀ c ∈ letters, c ∈ GroupHead.flagLetters)
    (hparse : parse source (r.flags.enableAll letters) = .ok pattern)
    (hroom : r.Room (Lexeme.all
      ⟨o, '(' :: '?' :: (letters ++ ':' :: (source.toList ++ ')' :: more))⟩))
    (hfresh : ∀ name, some name ∈ r.names → some name ∉ pattern.groupNames)
    (hr : 0 < r.names.size) :
    ∃ o', r.run ⟨o, '(' :: '?' :: (letters ++ ':' :: (source.toList ++ ')' :: more))⟩ =
        (r.grouped pattern).run ⟨o', more⟩ ∧
      (r.grouped pattern).Room (Lexeme.all ⟨o', more⟩) := by
  obtain ⟨head, o₁, hscan, hopening⟩ :=
    GroupHead.exists_scan_letters hletters (o + 1) (source.toList ++ ')' :: more)
  have hnext : Lexeme.next?
      ⟨o, '(' :: '?' :: (letters ++ ':' :: (source.toList ++ ')' :: more))⟩ =
        some (⟨o, .ok (.opening (.ok head))⟩, ⟨o₁, source.toList ++ ')' :: more⟩) :=
    Lexeme.next?_opening hscan
  rw [Lexeme.all_of_next?_eq_some hnext] at hroom
  have hstep : r.step ⟨o, .ok (.opening (.ok head))⟩ =
      .ok (r.openGroup o (r.flags.enableAll letters)) :=
    (step_opening (hroom.lt_deepestNesting rfl) o head).trans (hopening r o)
  rw [run_of_next? hnext hstep]
  exact run_enclosed (a := r.openGroup o (r.flags.enableAll letters)) hparse rfl rfl
    (hroom.step hstep) hfresh hr

/-- An accepted pattern does not begin with a question mark. -/
theorem toList_ne_question {flags : Flags} (hparse : parse source flags = .ok pattern)
    (cs : List Char) : source.toList ≠ '?' :: cs := by
  intro hsource
  obtain ⟨r, hr, -⟩ := exists_reader_of_parse hparse
  have hnext : Lexeme.next? (.ofString source) =
      some (⟨0, .ok (.quantifier ⟨0, some 1, !(Source.accept ⟨1, cs⟩ '?').1⟩)⟩,
        (Source.accept ⟨1, cs⟩ '?').2) := by
    unfold Source.ofString
    rw [hsource]
    rfl
  rw [Lexeme.all_of_next?_eq_some hnext] at hr
  obtain ⟨r₁, h₁, -⟩ := exists_step_of_foldlM hr
  simp [step, Branches.repeatLast?] at h₁

/-- The reader behind a group that captures and has no name. -/
def captured (r : Reader) (pattern : Pattern) : Reader :=
  { r with
    names := r.names.push none ++ pattern.groupNames.extract 1
    branches := r.branches.push
      (.group (pattern.node.renumber r.names.size) r.names.size none) }

/-- **A group that captures** becomes a piece with the next number. -/
theorem run_capture (hparse : parse source r.flags = .ok pattern)
    (hroom : r.Room (Lexeme.all ⟨o, '(' :: (source.toList ++ ')' :: more)⟩))
    (hfresh : ∀ name, some name ∈ r.names → some name ∉ pattern.groupNames) :
    ∃ o', r.run ⟨o, '(' :: (source.toList ++ ')' :: more)⟩ =
      (r.captured pattern).run ⟨o', more⟩ := by
  have hscan : GroupHead.scan ⟨o + 1, source.toList ++ ')' :: more⟩ =
      .ok (.capture, ⟨o + 1, source.toList ++ ')' :: more⟩) := by
    have hnone : Source.skip? ⟨o + 1, source.toList ++ ')' :: more⟩ '?' = none := by
      cases hsource : source.toList with
      | nil => rfl
      | cons c cs =>
        refine if_neg ?_
        rintro rfl
        exact toList_ne_question hparse cs hsource
    unfold GroupHead.scan
    rw [hnone]
  have hnext := Lexeme.next?_opening hscan
  rw [Lexeme.all_of_next?_eq_some hnext] at hroom
  have hopen := hroom.openCapture_eq rfl o none
  have hstep : r.step ⟨o, .ok (.opening (.ok .capture))⟩ = r.openCapture o none :=
    step_opening (hroom.lt_deepestNesting rfl) o .capture
  rw [run_of_next? hnext (hstep.trans hopen)]
  let a : Reader :=
    { r with
      names := r.names.push none
      groups := ⟨o, some (r.names.size, none), r.flags, r.branches⟩ :: r.groups
      branches := {} }
  have hfreshHere : ∀ name, some name ∈ a.names → some name ∉ pattern.groupNames := by
    intro name hname
    rcases Array.mem_push.mp hname with hname | hname
    · exact hfresh name hname
    · simp at hname
  have hsize : a.names.size = r.names.size + 1 := Array.size_push _
  obtain ⟨o', hrun, -⟩ := run_enclosed (a := a) hparse rfl rfl (hroom.step (hstep.trans hopen))
    hfreshHere (hsize ▸ Nat.succ_pos _)
  refine ⟨o', hrun.trans ?_⟩
  unfold behind
  rw [hsize, Nat.add_sub_cancel]
  rfl

/-! ## Whole patterns -/

variable {flags : Flags}

/-- The reader behind a group at the start of a pattern. -/
theorem grouped_init (hparse : parse source flags = .ok pattern) (flags' : Flags) :
    ({ flags := flags' } : Reader).grouped pattern =
      { flags := flags'
        names := pattern.groupNames
        branches := ({} : Branches).push pattern.node } := by
  unfold grouped
  rw [append_extract_groupNames hparse]
  exact congrArg (fun n => Reader.mk flags' pattern.groupNames [] (({} : Branches).push n))
    (Node.renumber_zero _)

theorem fresh_init (flags : Flags) (names : Array (Option String)) (name : String)
    (h : some name ∈ ({ flags } : Reader).names) : some name ∉ names := by
  simp at h

end Reader

section

variable {p q : String} {f : Flags} {P Q : Pattern}

theorem WithinLimits.room {source : String} (h : WithinLimits source) (flags : Flags) :
    ({ flags } : Reader).Room (Lexeme.all (.ofString source)) := by
  refine ⟨h.nesting, ?_⟩
  have hgroups := h.groups
  have hsize : ({ flags } : Reader).names.size = 1 := rfl
  omega

theorem parse_of_run {source : String} {flags : Flags} {r : Reader}
    (h : Reader.run { flags } (.ofString source) = .ok r) : parse source flags = r.finish := by
  unfold parse
  rw [h]

/-- A pattern in a group under more flags. -/
theorem parse_scoped {letters : List Char} (hletters : ∀ c ∈ letters, c ∈ GroupHead.flagLetters)
    (hp : parse p (f.enableAll letters) = .ok P)
    (hlimits : WithinLimits ("(?" ++ String.ofList letters ++ ":" ++ p ++ ")")) :
    parse ("(?" ++ String.ofList letters ++ ":" ++ p ++ ")") f = .ok ⟨P.node, f, P.groupNames⟩ := by
  have hsource : Source.ofString ("(?" ++ String.ofList letters ++ ":" ++ p ++ ")") =
      ⟨0, '(' :: '?' :: (letters ++ ':' :: (p.toList ++ ')' :: []))⟩ := by
    unfold Source.ofString
    simp
  obtain ⟨o, hrun, -⟩ := Reader.run_group hletters hp (hsource ▸ hlimits.room f)
    (Reader.fresh_init f P.groupNames) Nat.one_pos
  rw [← hsource, Reader.run_nil, Reader.grouped_init hp] at hrun
  exact parse_of_run hrun

/-- The letters of no flags. -/
theorem no_letters : ∀ c ∈ ([] : List Char), c ∈ GroupHead.flagLetters := by simp

/-- A pattern in a group that captures. -/
theorem parse_captured (hp : parse p f = .ok P) (hlimits : WithinLimits ("(" ++ p ++ ")")) :
    parse ("(" ++ p ++ ")") f =
      .ok ⟨.group (P.node.renumber 1) 1 none, f, #[none, none] ++ P.groupNames.extract 1⟩ := by
  have hsource : Source.ofString ("(" ++ p ++ ")") = ⟨0, '(' :: (p.toList ++ ')' :: [])⟩ := by
    unfold Source.ofString
    simp
  obtain ⟨o, hrun⟩ := Reader.run_capture hp (hsource ▸ hlimits.room f)
    (Reader.fresh_init f P.groupNames)
  rw [← hsource, Reader.run_nil] at hrun
  exact parse_of_run hrun

/-- Behind a group, what follows is read on. -/
theorem exists_run_first (hp : parse p f = .ok P) {source : String} (more : List Char)
    (hlimits : WithinLimits source)
    (hsource : source.toList = '(' :: '?' :: ':' :: (p.toList ++ ')' :: more)) :
    ∃ o, Reader.run { flags := f } (.ofString source) =
        Reader.run ⟨f, P.groupNames, [], ({} : Branches).push P.node⟩ ⟨o, more⟩ ∧
      (⟨f, P.groupNames, [], ({} : Branches).push P.node⟩ : Reader).Room
        (Lexeme.all ⟨o, more⟩) := by
  have hroom := hlimits.room f
  unfold Source.ofString at hroom ⊢
  rw [hsource] at hroom ⊢
  have hgroup := Reader.run_group no_letters hp hroom (Reader.fresh_init f P.groupNames) Nat.one_pos
  rw [Reader.grouped_init hp] at hgroup
  exact hgroup

/-- A pattern in a group. -/
theorem parse_group (hp : parse p f = .ok P) (hlimits : WithinLimits ("(?:" ++ p ++ ")")) :
    parse ("(?:" ++ p ++ ")") f = .ok ⟨P.node, f, P.groupNames⟩ := by
  obtain ⟨o, hrun, -⟩ := exists_run_first hp [] hlimits (by simp)
  rw [Reader.run_nil] at hrun
  exact parse_of_run hrun

/-- A pattern in a group that is repeated. -/
theorem parse_repeated (hp : parse p f = .ok P) {text : List Char} {quantifier : Quantifier}
    (htext : quantifier.Spelled text) (hvalid : quantifier.Valid)
    (hlimits : WithinLimits ("(?:" ++ p ++ ")" ++ String.ofList text)) :
    parse ("(?:" ++ p ++ ")" ++ String.ofList text) f =
      .ok ⟨.loop P.node quantifier, f, P.groupNames⟩ := by
  obtain ⟨o, hrun, -⟩ := exists_run_first hp text hlimits (by simp)
  obtain ⟨o', hnext⟩ := Quantifier.exists_next?_spelled htext hvalid o
  rw [Reader.run_of_next? hnext rfl, Reader.run_nil] at hrun
  exact parse_of_run hrun

/-- Two patterns in groups, one after the other. -/
theorem parse_row (hp : parse p f = .ok P) (hq : parse q f = .ok Q)
    (hlimits : WithinLimits ("(?:" ++ p ++ ")(?:" ++ q ++ ")"))
    (hfresh : ∀ name, some name ∈ P.groupNames → some name ∉ Q.groupNames) :
    parse ("(?:" ++ p ++ ")(?:" ++ q ++ ")") f =
      .ok ⟨.cat [P.node, Q.node.renumber (P.groupNames.size - 1)], f,
        P.groupNames ++ Q.groupNames.extract 1⟩ := by
  obtain ⟨o, hrun, hroom⟩ := exists_run_first hp ('(' :: '?' :: ':' :: (q.toList ++ [')'])) hlimits
    (by simp)
  obtain ⟨o', hrun', -⟩ := Reader.run_group no_letters hq hroom hfresh (parse_written hp).2
  rw [Reader.run_nil] at hrun'
  exact parse_of_run (hrun.trans hrun')

/-- Two patterns in groups to choose between. -/
theorem parse_choice (hp : parse p f = .ok P) (hq : parse q f = .ok Q)
    (hlimits : WithinLimits ("(?:" ++ p ++ ")|(?:" ++ q ++ ")"))
    (hfresh : ∀ name, some name ∈ P.groupNames → some name ∉ Q.groupNames) :
    parse ("(?:" ++ p ++ ")|(?:" ++ q ++ ")") f =
      .ok ⟨.alt [P.node, Q.node.renumber (P.groupNames.size - 1)], f,
        P.groupNames ++ Q.groupNames.extract 1⟩ := by
  obtain ⟨o, hrun, hroom⟩ := exists_run_first hp ('|' :: '(' :: '?' :: ':' :: (q.toList ++ [')']))
    hlimits (by simp)
  have hnext : Lexeme.next? ⟨o, '|' :: '(' :: '?' :: ':' :: (q.toList ++ [')'])⟩ =
      some (⟨o, .ok .bar⟩, ⟨o + 1, '(' :: '?' :: ':' :: (q.toList ++ [')'])⟩) := rfl
  rw [Reader.run_of_next? hnext rfl] at hrun
  rw [Lexeme.all_of_next?_eq_some hnext] at hroom
  obtain ⟨o', hrun', -⟩ :=
    Reader.run_group no_letters hq (hroom.step rfl) hfresh (parse_written hp).2
  rw [Reader.run_nil] at hrun'
  exact parse_of_run (hrun.trans hrun')

/-- **Reading is compositional under grouping.** Take patterns `p` and `q` that are accepted under
some flags, and a pattern put together of them that exceeds neither the limit on the nesting nor
that on the number of groups. A group around `p` is read to the node of `p`; two groups in a row, or
to choose between, to the nodes of both, where the groups of `q` are numbered behind those of `p`; a
group that captures to a group with number 1, behind which those of `p` are numbered; a group that
is repeated to a loop over the node of `p`. A group under more flags is read to what `p` is read to
under them. The names of the groups are put together in the same way, and the flags are those at the
start again, whatever flags `p` and `q` change. -/
theorem parse_compositional (hp : parse p f = .ok P) (hq : parse q f = .ok Q) :
    (WithinLimits ("(?:" ++ p ++ ")") →
      parse ("(?:" ++ p ++ ")") f = .ok ⟨P.node, f, P.groupNames⟩) ∧
    ((∀ name, some name ∈ P.groupNames → some name ∉ Q.groupNames) →
      (WithinLimits ("(?:" ++ p ++ ")(?:" ++ q ++ ")") →
        parse ("(?:" ++ p ++ ")(?:" ++ q ++ ")") f =
          .ok ⟨.cat [P.node, Q.node.renumber (P.groupNames.size - 1)], f,
            P.groupNames ++ Q.groupNames.extract 1⟩) ∧
      (WithinLimits ("(?:" ++ p ++ ")|(?:" ++ q ++ ")") →
        parse ("(?:" ++ p ++ ")|(?:" ++ q ++ ")") f =
          .ok ⟨.alt [P.node, Q.node.renumber (P.groupNames.size - 1)], f,
            P.groupNames ++ Q.groupNames.extract 1⟩)) ∧
    (WithinLimits ("(" ++ p ++ ")") →
      parse ("(" ++ p ++ ")") f =
        .ok ⟨.group (P.node.renumber 1) 1 none, f, #[none, none] ++ P.groupNames.extract 1⟩) ∧
    (∀ (text : List Char) (quantifier : Quantifier), quantifier.Spelled text → quantifier.Valid →
      WithinLimits ("(?:" ++ p ++ ")" ++ String.ofList text) →
      parse ("(?:" ++ p ++ ")" ++ String.ofList text) f =
        .ok ⟨.loop P.node quantifier, f, P.groupNames⟩) ∧
    ∀ (letters : List Char) (G : Pattern), (∀ c ∈ letters, c ∈ GroupHead.flagLetters) →
      parse p (f.enableAll letters) = .ok G →
      WithinLimits ("(?" ++ String.ofList letters ++ ":" ++ p ++ ")") →
      parse ("(?" ++ String.ofList letters ++ ":" ++ p ++ ")") f =
        .ok ⟨G.node, f, G.groupNames⟩ := by
  refine ⟨parse_group hp, fun hfresh => ⟨?_, ?_⟩, parse_captured hp, ?_, ?_⟩
  · exact fun hlimits => parse_row hp hq hlimits hfresh
  · exact fun hlimits => parse_choice hp hq hlimits hfresh
  · exact fun text quantifier htext hvalid hlimits => parse_repeated hp htext hvalid hlimits
  · exact fun letters G hletters hG hlimits => parse_scoped hletters hG hlimits

/-- Patterns that change flags, have groups and closing parentheses that close nothing: in a row, as
a group, repeated, and under another flag. -/
theorem parse_compositional_flags : ∃ P Q G,
    parse "(?i)(?P<x>a)|[)]" { dotAll := true } = .ok P ∧
    parse "(.)\\)(?m)^" { dotAll := true } = .ok Q ∧
    parse "(?i)(?P<x>a)|[)]" { dotAll := true, unicode := true } = .ok G ∧
    parse ("(?:" ++ "(?i)(?P<x>a)|[)]" ++ ")(?:" ++ "(.)\\)(?m)^" ++ ")") { dotAll := true } =
      .ok ⟨.cat [P.node, Q.node.renumber 1], { dotAll := true }, #[none, some "x", none]⟩ ∧
    parse ("(" ++ "(?i)(?P<x>a)|[)]" ++ ")") { dotAll := true } =
      .ok ⟨.group (P.node.renumber 1) 1 none, { dotAll := true }, #[none, none, some "x"]⟩ ∧
    parse ("(?:" ++ "(?i)(?P<x>a)|[)]" ++ ")" ++ String.ofList ['+', '?']) { dotAll := true } =
      .ok ⟨.loop P.node ⟨1, none, false⟩, { dotAll := true }, #[none, some "x"]⟩ ∧
    parse ("(?" ++ String.ofList ['u'] ++ ":" ++ "(?i)(?P<x>a)|[)]" ++ ")") { dotAll := true } =
      .ok ⟨G.node, { dotAll := true }, #[none, some "x"]⟩ := by
  obtain ⟨P, Q, G, hp, hq, hg, hP, hQ, hG⟩ : ∃ P Q G,
      parse "(?i)(?P<x>a)|[)]" { dotAll := true } = .ok P ∧
      parse "(.)\\)(?m)^" { dotAll := true } = .ok Q ∧
      parse "(?i)(?P<x>a)|[)]" { dotAll := true, unicode := true } = .ok G ∧
      P.groupNames = #[none, some "x"] ∧ Q.groupNames = #[none, none] ∧
      G.groupNames = #[none, some "x"] := by
    with_unfolding_all exact ⟨_, _, _, rfl, rfl, rfl, rfl, rfl, rfl⟩
  obtain ⟨-, htwo, hcapture, hloop, hscoped⟩ := parse_compositional hp hq
  have hrow := (htwo (by simp [hP, hQ])).1 ⟨by decide +kernel, by decide +kernel⟩
  have hcapture := hcapture ⟨by decide +kernel, by decide +kernel⟩
  have hloop := hloop ['+', '?'] ⟨1, none, false⟩ (.lazy .plus) (by unfold Quantifier.Valid; decide)
    ⟨by decide +kernel, by decide +kernel⟩
  have hscoped := hscoped ['u'] G (by simp [GroupHead.flagLetters]) hg
    ⟨by decide +kernel, by decide +kernel⟩
  rw [hP, hQ] at hrow
  rw [hP] at hcapture hloop
  rw [hG] at hscoped
  exact ⟨P, Q, G, hp, hq, hg, hrow, hcapture, hloop, hscoped⟩

end

end Pattern

end LinearRegex
