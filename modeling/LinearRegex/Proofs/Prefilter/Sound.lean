import LinearRegex.Prefilter.Beginning
import LinearRegex.Proofs.Engine.Rounds
import LinearRegex.Proofs.Pattern.Denotation
import LinearRegex.Proofs.Pattern.Written
import LinearRegex.Proofs.Prefilter.ByteSet
import LinearRegex.Proofs.Program.Language
import LinearRegex.Proofs.Text.Bytes

/-!
# Prefilters leave out no match

What is known of the beginning of a piece holds of the bytes behind every place where the piece
matches, so a search that asks the prefilter of its pattern where to go on passes over no match.

Main statements: `Beginning.describes_ofNode`, and `Program.Compiled.prefilterSound` for a whole
program.
-/

namespace LinearRegex

namespace Beginning

variable {a b : Beginning} {as bs bytes : List UInt8} {i j : Cursor}

/-- Whether what is known of the first bytes of a match holds of some bytes. -/
def Describes : Beginning → List UInt8 → Prop
  | .anything, _ => True
  | .bytes bs, bytes => bs ≠ [] ∧ bs <+: bytes
  | .oneOf s, bytes => ∃ b rest, bytes = b :: rest ∧ s.contains b = true

/-! ## Branches -/

theorem sharedStart_prefix_left (as bs : List UInt8) : sharedStart as bs <+: as := by
  induction as generalizing bs with
  | nil => simp [sharedStart]
  | cons a as ih =>
    cases bs with
    | nil => simp [sharedStart]
    | cons b bs =>
      rw [sharedStart]
      split
      · exact List.cons_prefix_cons.mpr ⟨rfl, ih bs⟩
      · exact List.nil_prefix

theorem sharedStart_prefix_right (as bs : List UInt8) : sharedStart as bs <+: bs := by
  induction as generalizing bs with
  | nil => simp [sharedStart]
  | cons a as ih =>
    cases bs with
    | nil => simp [sharedStart]
    | cons b bs =>
      rw [sharedStart]
      split
      · next h => exact List.cons_prefix_cons.mpr ⟨h, ih bs⟩
      · exact List.nil_prefix

theorem describes_firstOf (h : (Beginning.bytes bs).Describes bytes) :
    (oneOf (firstOf bs)).Describes bytes := by
  obtain ⟨hne, rest, rfl⟩ := h
  cases bs with
  | nil => exact absurd rfl hne
  | cons b bs => exact ⟨b, bs ++ rest, rfl, (ByteSet.contains_ofList _ _).mpr (by simp)⟩

theorem describes_union {s t : ByteSet}
    (h : (oneOf s).Describes bytes ∨ (oneOf t).Describes bytes) :
    (oneOf (s.union t)).Describes bytes := by
  rcases h with ⟨b, rest, rfl, hb⟩ | ⟨b, rest, rfl, hb⟩
  · exact ⟨b, rest, rfl, (ByteSet.contains_union _ _ _).mpr (Or.inl hb)⟩
  · exact ⟨b, rest, rfl, (ByteSet.contains_union _ _ _).mpr (Or.inr hb)⟩

/-- What is known of one of two ways is known in common. -/
theorem describes_join (h : a.Describes bytes ∨ b.Describes bytes) :
    (a.join b).Describes bytes := by
  cases a with
  | anything => trivial
  | bytes as =>
    cases b with
    | anything => trivial
    | bytes bs =>
      rw [join]
      split
      · exact describes_union (h.imp describes_firstOf describes_firstOf)
      · next hne =>
        refine ⟨hne, ?_⟩
        rcases h with h | h
        · exact (sharedStart_prefix_left as bs).trans h.2
        · exact (sharedStart_prefix_right as bs).trans h.2
    | oneOf t => exact describes_union (h.symm.imp_right describes_firstOf)
  | oneOf s =>
    cases b with
    | anything => trivial
    | bytes bs => exact describes_union (h.imp_right describes_firstOf)
    | oneOf t => exact describes_union h

theorem describes_ofBranches_known {ns : List Node} (h : a.Describes bytes) :
    (ofBranches (some a) ns).Describes bytes := by
  induction ns generalizing a with
  | nil => exact h
  | cons n ns ih =>
    rw [ofBranches]
    split
    · trivial
    · exact ih (describes_join (Or.inl h))

/-! ## Pieces -/

/-- The bytes behind a place where a character is taken. -/
theorem encode_rest_of_takes {accepts : Char → Bool} (h : i.Takes accepts j) :
    ∃ c, accepts c = true ∧ Utf8.encode i.rest = String.utf8EncodeChar c ++ Utf8.encode j.rest := by
  obtain ⟨c, hc, hacc, rfl⟩ := h
  obtain ⟨cs, hcs⟩ := Cursor.exists_rest_of_after hc
  refine ⟨c, hacc, ?_⟩
  rw [Cursor.rest_next hcs, hcs, Utf8.encode_cons]

theorem runBytes_of_isZeroWidth {n : Node} (h : n.isZeroWidth = true) : runBytes n = [] := by
  cases n with
  | char c ignoreCase => simp [Node.isZeroWidth] at h
  | _ => rfl

/-- A row matches only where the bytes of its literal characters stand. -/
theorem literalRun_prefix {ns : List Node} (h : Node.MatchesAll ns i j) :
    literalRun ns <+: Utf8.encode i.rest := by
  induction ns generalizing i with
  | nil => exact List.nil_prefix
  | cons n ns ih =>
    rw [Node.MatchesAll] at h
    obtain ⟨m, hm, h⟩ := h
    unfold literalRun
    rw [List.takeWhile_cons]
    split
    · next hkeeps =>
      rw [List.flatMap_cons]
      have hmore := ih h
      by_cases hzero : n.isZeroWidth = true
      · -- A piece of no width adds no bytes and stays where it is.
        obtain rfl := hm.eq_of_isZeroWidth hzero
        rw [runBytes_of_isZeroWidth hzero]
        exact hmore
      · obtain ⟨c, rfl⟩ : ∃ c, n = .char c false := by
          unfold keepsRun at hkeeps
          split at hkeeps
          · exact ⟨_, rfl⟩
          · exact absurd hkeeps hzero
        rw [Node.Matches] at hm
        obtain ⟨d, hd, heq⟩ := encode_rest_of_takes hm
        obtain rfl : d = c := by simpa using hd
        rw [heq]
        exact (List.prefix_append_right_inj _).mpr hmore
    · exact List.nil_prefix

/-- The characters that a bracket takes are those of its set, if its set alone decides. -/
theorem mem_of_isPlain {b : Bracket} (hb : b.chars.Canonical) (hplain : b.isPlain = true) {c : Char}
    (hc : b.accepts c = true) :
    CharSet.Mem c.toNat (if b.negated then b.chars.compl else b.chars) := by
  unfold Bracket.isPlain at hplain
  simp only [Bool.and_eq_true, List.isEmpty_iff, Bool.not_eq_true'] at hplain
  unfold Bracket.accepts Bracket.holds at hc
  simp only [hplain.1, hplain.2, List.any_nil, Bool.or_false, Bool.false_eq_true, if_false,
    bne_iff_ne, ne_eq] at hc
  cases hn : b.negated with
  | true =>
    rw [hn, Bool.not_eq_true] at hc
    rw [if_pos rfl, CharSet.mem_compl hb (CharSet.toNat_le_maxCodePoint c),
      ← CharSet.contains_iff hb, hc]
    simp
  | false =>
    rw [hn, Bool.not_eq_false] at hc
    exact (CharSet.contains_iff hb).mp hc

/-- A bracket that is decided by its code points takes characters with the first bytes of these. -/
theorem describes_ofBracket {b : Bracket} (hb : b.chars.Canonical) (h : i.Takes b.accepts j) :
    (ofBracket b).Describes (Utf8.encode i.rest) := by
  obtain ⟨c, hc, heq⟩ := encode_rest_of_takes h
  unfold ofBracket
  split
  · next hplain =>
    have hmem := mem_of_isPlain hb hplain hc
    have hfirst := Utf8.head?_utf8EncodeChar c
    cases henc : String.utf8EncodeChar c with
    | nil =>
      rw [henc] at hfirst
      simp at hfirst
    | cons x xs =>
      rw [henc] at hfirst heq
      obtain rfl := Option.some.inj hfirst
      exact ⟨_, _, heq, ByteSet.contains_firstBytes_iff.mpr
        ⟨c.toNat, CharSet.toNat_le_maxCodePoint c, hmem, rfl⟩⟩
  · trivial

mutual

/-- **What is known of a piece holds of the bytes behind every place where it matches.** -/
theorem describes_ofNode : ∀ {n : Node} {i j : Cursor} {b : Beginning}, n.WellFormed →
    n.Matches i j → ofNode? n = some b → b.Describes (Utf8.encode i.rest)
  | .empty, _, _, _, _, _, hb => by
    rw [ofNode?] at hb
    obtain rfl := Option.some.inj hb
    trivial
  | .char c false, i, j, _, _, h, hb => by
    rw [ofNode?] at hb
    obtain rfl := Option.some.inj hb
    rw [Node.Matches] at h
    obtain ⟨d, hd, heq⟩ := encode_rest_of_takes h
    obtain rfl : d = c := by simpa using hd
    rw [heq]
    exact ⟨String.utf8EncodeChar_ne_nil, List.prefix_append _ _⟩
  | .char _ true, _, _, _, _, _, hb => by
    rw [ofNode?] at hb
    obtain rfl := Option.some.inj hb
    trivial
  | .any, _, _, _, _, _, hb => by
    rw [ofNode?] at hb
    obtain rfl := Option.some.inj hb
    trivial
  | .anyButNewline, _, _, _, _, _, hb => by
    rw [ofNode?] at hb
    obtain rfl := Option.some.inj hb
    trivial
  | .assertion _, _, _, _, _, _, hb => by
    rw [ofNode?] at hb
    simp at hb
  | .bracket br, _, _, _, hw, h, hb => by
    rw [ofNode?] at hb
    obtain rfl := Option.some.inj hb
    rw [Node.Matches] at h
    exact describes_ofBracket hw h
  | .cat nodes, _, _, _, hw, h, hb => by
    rw [ofNode?] at hb
    rw [Node.Matches] at h
    split at hb
    · exact describes_ofFirst hw h hb
    · next hne =>
      obtain rfl := Option.some.inj hb
      exact ⟨hne, literalRun_prefix h⟩
  | .alt branches, _, _, _, hw, h, hb => by
    rw [ofNode?] at hb
    obtain rfl := Option.some.inj hb
    rw [Node.Matches] at h
    exact describes_ofBranches hw.2 h
  | .loop body q, i, _, _, hw, h, hb => by
    rw [ofNode?] at hb
    rw [Node.Matches] at h
    split at hb
    · next hmin =>
      -- At least one iteration is asked for, and the match begins with it.
      obtain ⟨k, hk, -, h⟩ := h
      cases k with
      | zero => omega
      | succ k =>
        obtain ⟨m, hm, -⟩ := h
        exact describes_ofNode hw.2 hm hb
    · obtain rfl := Option.some.inj hb
      trivial
  | .group body _ _, _, _, _, hw, h, hb => by
    rw [ofNode?] at hb
    rw [Node.Matches] at h
    exact describes_ofNode hw.2 h hb

theorem describes_ofFirst : ∀ {ns : List Node} {i j : Cursor} {b : Beginning},
    Node.AllWellFormed ns → Node.MatchesAll ns i j → ofFirst? ns = some b →
    b.Describes (Utf8.encode i.rest)
  | [], _, _, _, _, _, hb => by
    rw [ofFirst?] at hb
    simp at hb
  | n :: ns, _, _, _, hw, h, hb => by
    rw [ofFirst?] at hb
    rw [Node.MatchesAll] at h
    obtain ⟨m, hm, h⟩ := h
    split at hb
    · next hzero =>
      obtain rfl := hm.eq_of_isZeroWidth hzero
      exact describes_ofFirst hw.2 h hb
    · exact describes_ofNode hw.1 hm hb

theorem describes_ofBranches : ∀ {ns : List Node} {known : Option Beginning} {i j : Cursor},
    Node.AllWellFormed ns → Node.MatchesSome ns i j →
    (ofBranches known ns).Describes (Utf8.encode i.rest)
  | [], _, _, _, _, h => by
    rw [Node.MatchesSome] at h
    exact h.elim
  | n :: ns, known, _, _, hw, h => by
    rw [Node.MatchesSome] at h
    rw [ofBranches]
    split
    · trivial
    · next b hb =>
      rcases h with h | h
      · have hdescribes := describes_ofNode hw.1 h hb
        split
        · exact describes_ofBranches_known hdescribes
        · exact describes_ofBranches_known (describes_join (Or.inr hdescribes))
      · split
        · exact describes_ofBranches hw.2 h
        · exact describes_ofBranches hw.2 h

end

end Beginning

/-! ## The start of the text -/

namespace Node

mutual

theorem Matches.atStart : ∀ {n : Node} {i j : Cursor}, n.Matches i j →
    n.beginsAtTextStart = true → i.atStart = true
  | .assertion a, i, _, h, hb => by
    rw [Matches] at h
    rw [beginsAtTextStart, decide_eq_true_eq] at hb
    subst hb
    exact h.1
  | .cat nodes, _, _, h, hb => by
    rw [Matches] at h
    rw [beginsAtTextStart] at hb
    cases nodes with
    | nil => simp [firstBeginsAtTextStart] at hb
    | cons n ns =>
      rw [MatchesAll] at h
      rw [firstBeginsAtTextStart] at hb
      obtain ⟨m, hm, -⟩ := h
      exact Matches.atStart hm hb
  | .alt branches, _, _, h, hb => by
    rw [Matches] at h
    rw [beginsAtTextStart] at hb
    exact MatchesSome.atStart h hb
  | .group body _ _, _, _, h, hb => by
    rw [Matches] at h
    rw [beginsAtTextStart] at hb
    exact Matches.atStart h hb
  | .empty, _, _, _, hb => by simp [beginsAtTextStart] at hb
  | .char _ _, _, _, _, hb => by simp [beginsAtTextStart] at hb
  | .any, _, _, _, hb => by simp [beginsAtTextStart] at hb
  | .anyButNewline, _, _, _, hb => by simp [beginsAtTextStart] at hb
  | .bracket _, _, _, _, hb => by simp [beginsAtTextStart] at hb
  | .loop _ _, _, _, _, hb => by simp [beginsAtTextStart] at hb

theorem MatchesSome.atStart : ∀ {ns : List Node} {i j : Cursor}, MatchesSome ns i j →
    allBeginAtTextStart ns = true → i.atStart = true
  | [], _, _, h, _ => by
    rw [MatchesSome] at h
    exact h.elim
  | n :: ns, _, _, h, hb => by
    rw [MatchesSome] at h
    rw [allBeginAtTextStart, Bool.and_eq_true] at hb
    rcases h with h | h
    · exact Matches.atStart h hb.1
    · exact MatchesSome.atStart h hb.2

end

end Node

/-! ## Whole programs -/

section

variable {hay : Haystack} {cur q : Cursor} {j : Cursor}

/-- A prefilter finds each place where what it knows holds, unless it finds one before. -/
theorem Beginning.exists_next {b : Beginning} (hcur : cur ∈ hay.cursors) (hq : q ∈ cur.onward)
    (h : b.Describes (Utf8.encode q.rest)) :
    ∃ o, b.prefilter.next? hay.bytes cur.offset = some o ∧ o ≤ q.offset := by
  have hle := Cursor.offset_le_of_mem_onward hq
  have hq := Cursor.mem_onward_trans hcur hq
  have hsize := Haystack.offset_le_size hq
  have hbytes := Haystack.getElem?_bytes_of_mem_cursors hq
  unfold prefilter
  split
  · exact ⟨_, rfl, hle⟩
  · exact ⟨_, rfl, hle⟩
  · next bs _ =>
    obtain ⟨-, rest, hrest⟩ := h
    refine (Literal.isFirst_findFrom _ (Haystack.offset_le_size hcur)).exists_le hle
      ⟨hsize, fun k hk => ?_⟩
    rw [hbytes, ← hrest, List.getElem?_append_left hk]
  · split
    · exact ⟨_, rfl, hle⟩
    · next s _ =>
      obtain ⟨x, rest, heq, hx⟩ := h
      have hat := hbytes 0
      rw [heq, Nat.add_zero, List.getElem?_cons_zero] at hat
      exact (s.isFirst_findFrom (Haystack.offset_le_size hcur)).exists_le hle
        ⟨x, ByteSet.mem_toList.mpr hx, hat⟩

/-- The prefilter of a tree finds each place where the tree matches, unless it finds one before. -/
theorem Node.Matches.exists_next {n : Node} (hw : n.WellFormed) (hcur : cur ∈ hay.cursors)
    (hq : q ∈ cur.onward) (h : n.Matches q j) :
    ∃ o, n.prefilter.next? hay.bytes cur.offset = some o ∧ o ≤ q.offset := by
  unfold prefilter
  split
  · next hstart =>
    -- The match lies at offset 0, so the search has not gone on from there yet.
    have hq' := Cursor.mem_onward_trans hcur hq
    have hzero := Haystack.offset_eq_zero_of_atStart hq' (h.atStart hstart)
    have hle := Cursor.offset_le_of_mem_onward hq
    refine ⟨0, ?_, Nat.zero_le _⟩
    rw [Prefilter.next?, if_pos (by omega)]
  · split
    · exact ⟨_, rfl, Cursor.offset_le_of_mem_onward hq⟩
    · refine Beginning.exists_next hcur hq ?_
      cases hb : Beginning.ofNode? n with
      | none => trivial
      | some b => exact Beginning.describes_ofNode hw h hb

/-- **The prefilter of a compiled program leaves out no match.** -/
theorem Program.Compiled.prefilterSound {p : Program} {pattern : Pattern} {exit : Nat}
    (hc : p.Compiled pattern exit) (hw : pattern.node.WellFormed) : p.PrefilterSound hay := by
  rintro cur hcur q hq hr
  obtain ⟨j, hj⟩ := (hc.exists_accepts_iff hw).mp hr
  rw [hc.prefilter]
  exact hj.exists_next hw hcur hq

end

end LinearRegex
