import LinearRegex.Proofs.Program.Size
import LinearRegex.Proofs.Regex.Matches

/-!
# Quoted texts

What a text with all its metacharacters quoted is as a pattern: the reader takes it for the
characters of the text, one after the other. So it matches where the text occurs, and going through
the matches goes through the occurrences from left to right.

Main statements: `Pattern.parse_quote`, and `Regex.quote_finds` for what is found.
-/

namespace LinearRegex

open Utf8

/-! ## Occurrences -/

/-- Some characters stand in others between these, and nowhere earlier. -/
structure FirstBetween (needle cs before behind : List Char) : Prop where
  eq : cs = before ++ needle ++ behind
  le : ∀ before' behind', cs = before' ++ needle ++ behind' → before.length ≤ before'.length

/-- Where some characters stand in others that begin at a byte offset, from left to right: each time
where they stand first behind the last time. -/
inductive Occurrences (needle : List Char) : Nat → List Char → List Span → Prop
  | none {offset : Nat} {cs : List Char} (h : ¬ needle <:+: cs) : Occurrences needle offset cs []
  | next {offset : Nat} {cs before behind : List Char} {spans : List Span}
    (h : FirstBetween needle cs before behind)
    (rest : Occurrences needle (offset + byteLength before + byteLength needle) behind spans) :
    Occurrences needle offset cs
      (⟨offset + byteLength before, offset + byteLength before + byteLength needle⟩ :: spans)

/-- What stands first stands in one place. -/
theorem FirstBetween.unique {needle cs before before' behind behind' : List Char}
    (h : FirstBetween needle cs before behind) (h' : FirstBetween needle cs before' behind') :
    before = before' := by
  have hlength := Nat.le_antisymm (h.le _ _ h'.eq) (h'.le _ _ h.eq)
  have heq := h.eq.symm.trans h'.eq
  rw [List.append_assoc, List.append_assoc] at heq
  exact (List.append_inj heq hlength).1

/-! ## Reading -/

namespace Escape

/-- **What is quoted is what the reader takes for itself** behind a backslash, a blank apart, which
has no need of one. -/
theorem quotedCharacters_eq : quotedCharacters = metacharacters := rfl

/-- A character as it is quoted. -/
def quoted (c : Char) : List Char := if quotedCharacters.contains c then ['\\', c] else [c]

/-- No metacharacter begins another escape. -/
theorem quotes_only {c : Char} (h : c ∈ metacharacters) :
    ClassEscape.ofLetter? c = none ∧ control? c = none ∧
      ∀ d ∈ ['b', 'B', 'A', 'z', 'x', 'u'], c ≠ d := by
  have hall : metacharacters.all (fun c => (ClassEscape.ofLetter? c).isNone &&
      ((control? c).isNone && ['b', 'B', 'A', 'z', 'x', 'u'].all (c != ·))) = true := by decide
  simpa only [Bool.and_eq_true, Option.isNone_iff_eq_none, List.all_eq_true, bne_iff_ne] using
    List.all_eq_true.mp hall c h

theorem scanChar_metacharacter {o : Nat} {c : Char} {s t : Source} (hs : s.next? = some (c, t))
    (hc : c ∈ metacharacters) : scanChar o s = .ok (c, t) := by
  obtain ⟨-, hcontrol, hletters⟩ := quotes_only hc
  have hcontains : metacharacters.contains c = true := List.contains_iff_mem.mpr hc
  unfold scanChar
  rw [hs]
  simp only [hcontrol, if_neg (hletters 'x' (by simp)), if_neg (hletters 'u' (by simp)), hcontains,
    Bool.true_or, if_true]

end Escape

open Escape

theorem toList_quote (text : String) : (quote text).toList = text.toList.flatMap quoted :=
  String.toList_ofList

namespace Token

theorem scanEscape_metacharacter {o : Nat} {c : Char} {s t : Source} (hs : s.next? = some (c, t))
    (hc : c ∈ metacharacters) : scanEscape o s = .ok (.char c, t) := by
  obtain ⟨hclass, -, hletters⟩ := quotes_only hc
  unfold scanEscape
  rw [hs]
  simp only [hclass, if_neg (hletters 'b' (by simp)), if_neg (hletters 'B' (by simp)),
    if_neg (hletters 'A' (by simp)), if_neg (hletters 'z' (by simp)), scanChar_metacharacter hs hc]

theorem scan_backslash (o : Nat) (s : Source) : scan o '\\' s = scanEscape o s := rfl

/-- A character that is no metacharacter stands for itself. -/
theorem scan_plain {o : Nat} {c : Char} {s : Source} (hc : c ∉ metacharacters) :
    scan o c s = .ok (.char c, s) := by
  have hne : ∀ d ∈ metacharacters, c ≠ d := fun d hd h => hc (h ▸ hd)
  have hsingle : single? c = none := by
    unfold single?
    split
    any_goals rfl
    all_goals exact absurd rfl (hne _ (by decide))
  have hquantifier : quantifier? c = none := by
    unfold quantifier?
    split
    any_goals rfl
    all_goals exact absurd rfl (hne _ (by decide))
  have hmeta : ∀ d ∈ ['\x7b', '(', '[', ']', '\\'], d ∈ metacharacters := by simp [metacharacters]
  exact scan_char hsingle hquantifier (fun d hd => hne d (hmeta d hd)) o s

end Token

/-- **A quoted character is one lexeme**, whatever follows it. -/
theorem Lexeme.next?_quoted (o : Nat) (c : Char) (cs : List Char) :
    ∃ o', Lexeme.next? ⟨o, quoted c ++ cs⟩ = some (⟨o, .ok (.char c)⟩, ⟨o', cs⟩) := by
  unfold quoted
  rw [quotedCharacters_eq]
  by_cases hc : c ∈ metacharacters
  · rw [if_pos (List.contains_iff_mem.mpr hc)]
    have hscan : Token.scan o '\\' ⟨o + '\\'.utf8Size, c :: cs⟩ =
        .ok (.char c, ⟨o + '\\'.utf8Size + c.utf8Size, cs⟩) :=
      (Token.scan_backslash _ _).trans (Token.scanEscape_metacharacter rfl hc)
    refine ⟨o + '\\'.utf8Size + c.utf8Size, ?_⟩
    exact Lexeme.next?_of_scan hscan
  · rw [if_neg (by rwa [List.contains_iff_mem])]
    refine ⟨o + c.utf8Size, ?_⟩
    exact Lexeme.next?_of_scan (Token.scan_plain hc)

namespace Pattern

/-- The reader takes in the characters of a quoted text as pieces. -/
theorem Reader.run_quoted (cs : List Char) (r : Reader) (o : Nat) :
    ∃ started repeatable, r.run ⟨o, cs.flatMap quoted⟩ = .ok { r with
      branches := { r.branches with
        pieces := (cs.map fun c => Node.literal c r.flags).reverse ++ r.branches.pieces
        started, repeatable } } := by
  induction cs generalizing r o with
  | nil =>
    refine ⟨r.branches.started, r.branches.repeatable, ?_⟩
    rw [run]
    rfl
  | cons c cs ih =>
    obtain ⟨o', hnext⟩ := Lexeme.next?_quoted o c (cs.flatMap quoted)
    obtain ⟨started, repeatable, hrun⟩ := ih (r.push (.literal c r.flags)) o'
    refine ⟨started, repeatable, ?_⟩
    rw [List.flatMap_cons, run]
    split
    · next h => simp [h] at hnext
    · next lx t h =>
      obtain ⟨rfl, rfl⟩ := Prod.mk.inj (Option.some.inj (h.symm.trans hnext))
      rw [List.map_cons, List.reverse_cons, List.append_assoc]
      exact hrun

/-- **A quoted text is read as its characters** in a row, without a group. -/
theorem parse_quote (text : String) (flags : Flags) :
    parse (quote text) flags =
      .ok ⟨Node.sequence (text.toList.map fun c => Node.literal c flags), flags, #[none]⟩ := by
  obtain ⟨started, repeatable, hrun⟩ := Reader.run_quoted text.toList { flags } 0
  unfold parse Source.ofString
  rw [toList_quote, hrun]
  unfold Reader.finish Branches.finish
  simp [Branches.nodes, Node.choice]

end Pattern

/-! ## Compiling -/

/-- Characters in a row take an instruction each. -/
theorem Node.codeSizeAll_chars {ns : List Node}
    (hns : ∀ n ∈ ns, ∃ c ignoreCase, n = .char c ignoreCase) : codeSizeAll ns = ns.length := by
  induction ns with
  | nil => rw [codeSizeAll, List.length_nil]
  | cons n ns ih =>
    obtain ⟨⟨c, ignoreCase, rfl⟩, hmore⟩ := List.forall_mem_cons.mp hns
    rw [codeSizeAll, codeSize, ih hmore, List.length_cons, Nat.add_comm]

/-- **Characters in a row can be compiled** where there is room for them and three instructions
more, without a group. -/
theorem Program.exists_compile {limit : Nat} {ns : List Node} (flags : Flags)
    (hns : ∀ n ∈ ns, ∃ c ignoreCase, n = .char c ignoreCase) (hsize : ns.length + 3 ≤ limit) :
    ∃ p, compile limit ⟨Node.sequence ns, flags, #[none]⟩ = .ok p := by
  have hcode : (Node.sequence ns).codeSize = ns.length :=
    (Node.codeSize_sequence ns).trans (Node.codeSizeAll_chars hns)
  refine exists_compile_of_fits ⟨?_, ?_⟩
  · show 3 + (Node.sequence ns).codeSize ≤ limit
    omega
  · show min ((3 + (Node.sequence ns).codeSize) * (2 * 1)) countCeiling ≤ _
    rw [hcode]
    omega

/-! ## Matching -/

namespace Cursor

/-- Where a text is cut in two there is a boundary. -/
theorem exists_mem_onward_of_append {cur : Cursor} {passed rest : List Char}
    (h : cur.rest = passed ++ rest) :
    ∃ q ∈ cur.onward, q.rest = rest ∧ q.offset = cur.offset + byteLength passed := by
  induction passed generalizing cur with
  | nil => exact ⟨cur, cur.mem_onward_self, h, rfl⟩
  | cons c cs ih =>
    rw [List.cons_append] at h
    obtain ⟨q, hq, hrest, hoffset⟩ := ih (rest_next h)
    refine ⟨q, mem_onward_trans cur.next_mem_onward hq, hrest, ?_⟩
    rw [hoffset, offset_next h, byteLength_cons, Nat.add_assoc]

/-- A boundary with the same text behind it is the same. -/
theorem eq_of_rest_eq {cur q : Cursor} (hq : q ∈ cur.onward) (h : cur.rest = q.rest) : cur = q := by
  by_contra hne
  have hlt := rest_length_lt_of_mem_onward hq hne
  rw [h] at hlt
  exact Nat.lt_irrefl _ hlt

end Cursor

namespace Node

/-- **Characters in a row match where they stand.** -/
theorem matchesAll_chars {cs : List Char} {i j : Cursor} :
    MatchesAll (cs.map fun c => .char c false) i j ↔ j ∈ i.onward ∧ i.rest = cs ++ j.rest := by
  induction cs generalizing i with
  | nil =>
    rw [List.map_nil, MatchesAll, List.nil_append]
    exact ⟨fun h => h ▸ ⟨i.mem_onward_self, rfl⟩, fun h => Cursor.eq_of_rest_eq h.1 h.2⟩
  | cons c cs ih =>
    rw [List.map_cons, MatchesAll]
    constructor
    · rintro ⟨m, hm, h⟩
      rw [Matches] at hm
      obtain ⟨d, hd, hc, rfl⟩ := hm
      obtain rfl : d = c := by simpa using hc
      obtain ⟨ds, hrest⟩ := Cursor.exists_rest_of_after hd
      obtain ⟨hj, heq⟩ := ih.mp h
      rw [Cursor.rest_next hrest] at heq
      exact ⟨Cursor.mem_onward_trans i.next_mem_onward hj, by rw [hrest, heq, List.cons_append]⟩
    · rintro ⟨hj, heq⟩
      rw [List.cons_append] at heq
      have hafter : i.after = some c := by rw [Cursor.after, heq, List.head?_cons]
      refine ⟨i.next, ?_, ih.mpr ⟨?_, Cursor.rest_next heq⟩⟩
      · rw [Matches]
        exact ⟨c, hafter, by simp, rfl⟩
      · rw [Cursor.onward_of_rest_cons heq] at hj
        rcases List.mem_cons.mp hj with rfl | hj
        · have hlength := congrArg List.length heq
          simp only [List.length_cons, List.length_append] at hlength
          omega
        · exact hj

theorem matches_sequence {ns : List Node} {i j : Cursor} :
    (sequence ns).Matches i j ↔ MatchesAll ns i j := by
  match ns with
  | [] =>
    unfold sequence
    rw [Matches, MatchesAll]
  | [n] =>
    unfold sequence
    rw [MatchesAll]
    constructor
    · intro h
      exact ⟨j, h, by rw [MatchesAll]⟩
    · rintro ⟨m, hm, h⟩
      rw [MatchesAll] at h
      exact h ▸ hm
  | _ :: _ :: _ =>
    unfold sequence
    rw [Matches]

end Node

/-! ## Finding -/

namespace Program

variable {p : Program} {hay : Haystack} {start i j : Cursor} {needle : List Char}

/-- A program whose matches are where some characters stand. -/
structure Spells (p : Program) (hay : Haystack) (needle : List Char) : Prop where
  none_at : ∀ i ∈ hay.cursors, p.FindsNoneAt hay i → ¬ needle <+: i.rest
  rest_eq : ∀ i ∈ hay.cursors, ∀ j ∈ i.onward, p.FindsTo hay i j → i.rest = needle ++ j.rest

theorem spells_of_parse {source : String} {limit : Nat} {flags : Flags} {tree : Pattern}
    (hparse : Pattern.parse source flags = .ok tree) (hcompile : compile limit tree = .ok p)
    (hnode : tree.node = Node.sequence (needle.map fun c => .char c false)) (hay : Haystack) :
    p.Spells hay needle := by
  obtain ⟨exit, hc, hw⟩ := exists_compiled hparse hcompile
  have hmatches : ∀ i j, tree.node.Matches i j ↔ j ∈ i.onward ∧ i.rest = needle ++ j.rest := by
    intro i j
    rw [hnode]
    exact Node.matches_sequence.trans Node.matchesAll_chars
  refine ⟨fun i hi hnone hprefix => ?_, fun i hi j hj hfinds => ?_⟩
  · obtain ⟨rest, hrest⟩ := hprefix
    obtain ⟨q, hq, rfl, -⟩ := Cursor.exists_mem_onward_of_append hrest.symm
    exact hc.not_matches_of_findsNoneAt hw hi hnone ((hmatches i q).mpr ⟨hq, hrest.symm⟩)
  · exact ((hmatches i j).mp (hc.matches_of_findsTo hw hi hj hfinds)).2

namespace Spells

variable (h : p.Spells hay needle)
include h

/-- **A search finds the first occurrence.** -/
theorem exists_firstBetween (hstart : start ∈ hay.cursors) (hmatch : p.FindsMatch hay start i j) :
    ∃ before, FirstBetween needle start.rest before j.rest ∧
      i.offset = start.offset + byteLength before ∧ j.offset = i.offset + byteLength needle := by
  have hrest := h.rest_eq i hmatch.mem_cursors j hmatch.stop_mem hmatch.findsTo
  obtain ⟨before, hbefore, hi⟩ := Cursor.exists_append_of_mem_onward hmatch.start_mem
  obtain ⟨between, hbetween, hj⟩ := Cursor.exists_append_of_mem_onward hmatch.stop_mem
  rw [hrest, List.append_cancel_right_eq] at hbetween
  rw [length_encode] at hi hj
  refine ⟨before, ⟨by rw [hbefore, hrest, List.append_assoc], ?_⟩, hi, hbetween ▸ hj⟩
  intro before' behind' heq
  by_contra hlt
  -- An earlier occurrence would be a match that begins before.
  rw [List.append_assoc] at heq
  obtain ⟨q, hq, hqrest, -⟩ := Cursor.exists_mem_onward_of_append heq
  have hearlier : q.offset < i.offset := by
    by_contra hle
    have hqi := (Cursor.mem_onward_iff hmatch.start_mem).mpr ⟨hq, Nat.not_lt.mp hle⟩
    have hlength := Cursor.rest_length_le_of_mem_onward hqi
    have hsplit := congrArg List.length (hbefore.symm.trans heq)
    rw [List.length_append, List.length_append, ← hqrest] at hsplit
    omega
  exact h.none_at q (Cursor.mem_onward_trans hstart hq) (hmatch.none_before q hq hearlier)
    ⟨behind', hqrest.symm⟩

/-- A search that finds nothing leaves out no occurrence. -/
theorem not_infix (hstart : start ∈ hay.cursors) (hnothing : p.FindsNothing hay start) :
    ¬ needle <:+: start.rest := by
  rintro ⟨before, behind, heq⟩
  rw [List.append_assoc] at heq
  obtain ⟨q, hq, hrest, -⟩ := Cursor.exists_mem_onward_of_append heq.symm
  exact h.none_at q (Cursor.mem_onward_trans hstart hq) (hnothing.none_behind q hq)
    ⟨behind, hrest.symm⟩

/-- What is found is the text itself. -/
theorem slice_eq (hi : i ∈ hay.cursors) (hj : j ∈ i.onward) (hfinds : p.FindsTo hay i j) :
    hay.slice i.offset j.offset = String.ofList needle := by
  have hrest := h.rest_eq i hi j hj hfinds
  rw [Haystack.rest_eq_slice_append hi hj, List.append_cancel_right_eq] at hrest
  rw [← hrest, String.ofList_toList]

/-- **The matches that remain are the occurrences that remain**, unless every place is one. -/
theorem occurrences {next : Option Cursor} {last : Option Nat} {l : List (Cursor × Cursor)}
    (hne : needle ≠ []) (hl : p.Remaining hay next last l) (hnext : next = some start)
    (hstart : start ∈ hay.cursors) :
    Occurrences needle start.offset start.rest (l.map fun x => ⟨x.1.offset, x.2.offset⟩) := by
  have hstretch : ∀ {start i : Cursor}, ¬ p.FindsMatch hay start i i := by
    intro start i hmatch
    have hrest := h.rest_eq i hmatch.mem_cursors i hmatch.stop_mem hmatch.findsTo
    exact hne (List.self_eq_append_left.mp hrest)
  induction hl generalizing start with
  | nil => simp at hnext
  | nothing _ hnothing =>
    obtain rfl := Option.some.inj hnext
    exact .none (h.not_infix hstart hnothing)
  | skip hmatch => exact absurd hmatch hstretch
  | empty hmatch => exact absurd hmatch hstretch
  | stretch hmatch _ _ ih =>
    obtain rfl := Option.some.inj hnext
    obtain ⟨before, hfirst, hi, hj⟩ := h.exists_firstBetween hstart hmatch
    have hrest := ih rfl hmatch.stop_mem_cursors
    rw [hj, hi] at hrest
    rw [List.map_cons, hj, hi]
    exact .next hfirst hrest

end Spells

end Program

namespace Regex

variable {hay : Haystack} {needle : List Char}

/-- What is found in a text is the first occurrence, if there is one. -/
theorem find_of_spells (re : Regex) (h : re.program.Spells hay needle)
    (hmatch : re.program.FindsNothing hay hay.start ∨
      ∃ i j, re.program.FindsMatch hay hay.start i j) :
    (re.find hay = none ∧ ¬ needle <:+: hay.chars) ∨
      ∃ before behind, FirstBetween needle hay.chars before behind ∧
        re.find hay = some ⟨⟨byteLength before, byteLength before + byteLength needle⟩,
          String.ofList needle⟩ := by
  have hstart := hay.start_mem_cursors
  rcases hmatch with hnothing | ⟨i, j, hmatch⟩
  · exact .inl ⟨findFrom_of_findsNothing hnothing, h.not_infix hstart hnothing⟩
  · obtain ⟨before, hfirst, hi, hj⟩ := h.exists_firstBetween hstart hmatch
    have hi : i.offset = byteLength before := hi.trans (Nat.zero_add _)
    have hslice := h.slice_eq hmatch.mem_cursors hmatch.stop_mem hmatch.findsTo
    refine .inr ⟨before, j.rest, hfirst, ?_⟩
    unfold find
    rw [findFrom_of_findsMatch hmatch, Haystack.matchAt, hslice, hj, hi]

/-- All matches in a text are all occurrences. -/
theorem exists_occurrences (re : Regex) {l : List (Cursor × Cursor)}
    (h : re.program.Spells hay needle) (hne : needle ≠ [])
    (hl : re.program.Remaining hay (some hay.start) none l) :
    ∃ spans, Occurrences needle 0 hay.chars spans ∧
      re.findAll hay = spans.map fun s => ⟨s, String.ofList needle⟩ := by
  refine ⟨_, h.occurrences hne hl rfl hay.start_mem_cursors, ?_⟩
  rw [findAll_eq hl, List.map_map]
  refine List.map_congr_left fun x hx => ?_
  obtain ⟨hi, hj, hfinds⟩ := hl.bounds_of_mem hx
  rw [Haystack.matchAt, h.slice_eq hi hj hfinds]
  rfl

/-- A quoted text that leaves room for three instructions can be built. -/
theorem exists_build_quote (text : String) (hsize : text.length + 3 ≤ Program.defaultLimit) :
    ∃ p, Program.compile Program.defaultLimit
        ⟨Node.sequence (text.toList.map fun c => Node.literal c {}), {}, #[none]⟩ = .ok p ∧
      build (quote text) = .ok ⟨quote text, p⟩ := by
  have hchars : ∀ n ∈ text.toList.map fun c => Node.literal c {},
      ∃ c ignoreCase, n = .char c ignoreCase := by
    rintro n hn
    obtain ⟨c, -, rfl⟩ := List.mem_map.mp hn
    exact Node.literal_eq_char c {}
  have hroom : (text.toList.map fun c => Node.literal c {}).length + 3 ≤ Program.defaultLimit := by
    rwa [List.length_map]
  obtain ⟨p, hcompile⟩ := Program.exists_compile {} hchars hroom
  refine ⟨p, hcompile, ?_⟩
  unfold build
  rw [Pattern.parse_quote]
  dsimp only
  rw [hcompile]

/-- **Quoting is undone by the reader.** A text that leaves room for three instructions can be built
when it is quoted, and has no groups of its own. What is found in any text is where the quoted one
occurs first, and nothing is found just when it does not occur. If it is not empty, going through
the matches goes through its occurrences from left to right, none overlapping another. -/
theorem quote_finds (text : String) (hsize : text.length + 3 ≤ Program.defaultLimit) :
    ∃ re, build (quote text) = .ok re ∧ re.groupNames = #[none] ∧ re.groupCount = 1 ∧
      ∀ hay : Haystack,
        (re.find hay = none ↔ ¬ text.toList <:+: hay.chars) ∧
        (∀ m, re.find hay = some m ↔
          ∃ before behind, FirstBetween text.toList hay.chars before behind ∧
            m = ⟨⟨byteLength before, byteLength before + text.utf8ByteSize⟩, text⟩) ∧
        (text ≠ "" → ∃ spans, Occurrences text.toList 0 hay.chars spans ∧
          re.findAll hay = spans.map fun s => ⟨s, text⟩) := by
  obtain ⟨p, hcompile, hbuild⟩ := exists_build_quote text hsize
  have hparse := Pattern.parse_quote text {}
  obtain ⟨exit, hc, hw⟩ := Program.exists_compiled hparse hcompile
  have hgroups : p.groupNames = #[none] := hc.groupNames
  let re : Regex := ⟨quote text, p⟩
  refine ⟨re, hbuild, hgroups, congrArg Array.size hgroups, fun hay => ?_⟩
  have hspells : p.Spells hay text.toList := Program.spells_of_parse hparse hcompile rfl hay
  have hfind := find_of_spells re hspells (hc.exists_findsMatch hw hay.start_mem_cursors)
  obtain ⟨l, hl⟩ := hc.exists_remaining hw hay.start_mem_cursors none
  have hfindAll := fun hne => exists_occurrences re hspells hne hl
  rw [String.ofList_toList, byteLength_toList] at hfind
  rw [String.ofList_toList] at hfindAll
  refine ⟨?_, fun m => ?_, fun hne => hfindAll (by simpa using hne)⟩
  · rcases hfind with ⟨hnone, hnot⟩ | ⟨before, behind, hfirst, hsome⟩
    · exact iff_of_true hnone hnot
    · exact iff_of_false (hsome ▸ Option.some_ne_none _)
        fun hnot => hnot ⟨before, behind, hfirst.eq.symm⟩
  · rcases hfind with ⟨hnone, hnot⟩ | ⟨before, behind, hfirst, hsome⟩
    · refine iff_of_false (by simp [hnone]) ?_
      rintro ⟨before, behind, hfirst, -⟩
      exact hnot ⟨before, behind, hfirst.eq.symm⟩
    · rw [hsome]
      constructor
      · intro h
        exact ⟨before, behind, hfirst, (Option.some.inj h).symm⟩
      · rintro ⟨before', behind', hfirst', rfl⟩
        rw [hfirst.unique hfirst']

/-- A text with a metacharacter and characters of two bytes that overlaps with itself. -/
theorem quote_finds_overlap : "é+é".length + 3 ≤ Program.defaultLimit ∧
    ∃ re, build "é\\+é" = .ok re ∧ re.groupCount = 1 ∧
      re.find (.ofString "xé+é+é+é") = some ⟨⟨1, 6⟩, "é+é"⟩ ∧
      ∃ spans, Occurrences ['é', '+', 'é'] 0 "xé+é+é+é".toList spans ∧
        re.findAll (.ofString "xé+é+é+é") = spans.map fun s => ⟨s, "é+é"⟩ := by
  have hsize : "é+é".length + 3 ≤ Program.defaultLimit := by decide
  obtain ⟨re, hbuild, -, hcount, hfinds⟩ := quote_finds "é+é" hsize
  obtain ⟨-, hfind, hfindAll⟩ := hfinds (.ofString "xé+é+é+é")
  have hfirst : FirstBetween "é+é".toList (Haystack.ofString "xé+é+é+é").chars ['x']
      ['+', 'é', '+', 'é'] := by
    refine ⟨by decide, fun before' behind' heq => ?_⟩
    cases before' with
    | nil => simp [Haystack.ofString] at heq
    | cons c cs => simp
  exact ⟨hsize, re, hbuild, hcount, (hfind _).mpr ⟨_, _, hfirst, rfl⟩, hfindAll (by decide)⟩

end Regex

end LinearRegex
