import LinearRegex.Proofs.Pattern.Parts
import LinearRegex.Proofs.Program.Size

/-!
# Copies of the bodies of loops

The body of a loop is written out as often as the loop may run. A body for which something is
written uses up the limit with every copy, and there is none when the limit is used up. A body for
which nothing is written uses up nothing: its copies go on, whatever the limit is.

Main statements: `Node.codeSize_eq_zero_iff`, which tells the pieces for which nothing is written by
their shape, and `Program.copies_charged`.
-/

namespace LinearRegex

namespace Node

mutual

/-- Whether no instruction is written for a piece: it is empty, a row of such pieces, or a loop that
runs a fixed number of times, without a body if the number is 0. -/
def isBlank : Node → Bool
  | .empty => true
  | .cat nodes => allBlank nodes
  | .loop body ⟨min, some max, _⟩ => max ≤ min && (min == 0 || isBlank body)
  | _ => false

/-- Whether no instruction is written for any piece of a row. -/
def allBlank : List Node → Bool
  | [] => true
  | n :: ns => isBlank n && allBlank ns

end

theorem allBlank_iff {ns : List Node} : allBlank ns = true ↔ ∀ n ∈ ns, n.isBlank = true := by
  induction ns with
  | nil => simp [allBlank]
  | cons n ns ih => rw [allBlank, Bool.and_eq_true, ih, List.forall_mem_cons]

theorem codeSizeAll_eq_zero_iff {ns : List Node} :
    codeSizeAll ns = 0 ↔ ∀ n ∈ ns, n.codeSize = 0 := by
  induction ns with
  | nil => simp [codeSizeAll]
  | cons n ns ih => rw [codeSizeAll, Nat.add_eq_zero_iff, ih, List.forall_mem_cons]

/-- **The pieces of no size** are told by their shape. -/
theorem codeSize_eq_zero_iff {n : Node} (h : n.Written) : n.codeSize = 0 ↔ n.isBlank = true := by
  induction h with
  | empty => simp [codeSize, isBlank]
  | literal c flags =>
    obtain ⟨d, ignoreCase, hn⟩ := literal_eq_char c flags
    simp [hn, codeSize, isBlank]
  | any => simp [codeSize, isBlank]
  | anyButNewline => simp [codeSize, isBlank]
  | assertion a => simp [codeSize, isBlank]
  | escape e flags => simp [ofEscape, codeSize, isBlank]
  | bracket flags negated h => simp [codeSize, isBlank]
  | cat _ _ ih =>
    rw [codeSize, isBlank, codeSizeAll_eq_zero_iff, allBlank_iff]
    exact forall₂_congr ih
  | alt hlength _ _ =>
    -- A choice is between two branches at least, so there is a split.
    simp only [codeSize, isBlank, Bool.false_eq_true, iff_false]
    omega
  | @loop body q _ hq ih =>
    obtain ⟨min, max, greedy⟩ := q
    cases max with
    | none => simp [codeSize, isBlank]
    | some max =>
      have hmax : max - min = 0 ↔ max ≤ min := Nat.sub_eq_zero_iff_le
      simp only [codeSize, isBlank, Nat.add_eq_zero_iff, Nat.mul_eq_zero, ih, hmax,
        Nat.add_one_ne_zero, or_false, Bool.and_eq_true, Bool.or_eq_true, decide_eq_true_eq,
        beq_iff_eq]
      exact and_comm
  | group _ _ _ _ => simp [codeSize, isBlank]

/-! ## Copies -/

theorem times_of_forall_ok {α ε : Type} {step : α → Except ε α} (h : ∀ a, step a = .ok a)
    (m : Nat) (a : α) : times step m a = .ok a := by
  induction m with
  | zero => rfl
  | succ m ih =>
    rw [times, h]
    exact ih

mutual

/-- Nothing is written for a blank piece, whatever the limit is. -/
theorem emit_of_isBlank (limit : Nat) : ∀ {n : Node}, n.isBlank = true →
    ∀ code, emit limit n code = .ok code
  | .empty, _, code => by rw [emit]
  | .cat nodes, h, code => by
    rw [isBlank] at h
    rw [emit]
    exact emitAll_of_allBlank limit h code
  | .loop body ⟨min, some max, greedy⟩, h, code => by
    rw [isBlank, Bool.and_eq_true, decide_eq_true_eq, Bool.or_eq_true, beq_iff_eq] at h
    obtain ⟨hmax, hbody⟩ := h
    have hmin : times (emit limit body) min code = .ok code := by
      rcases hbody with rfl | hbody
      · rfl
      · exact times_of_forall_ok (emit_of_isBlank limit hbody) min code
    rw [emit_loop_some, hmin, Nat.sub_eq_zero_of_le hmax]
    rfl
  | .loop _ ⟨_, none, _⟩, h, _ => by simp [isBlank] at h
  | .char _ _, h, _ => by simp [isBlank] at h
  | .any, h, _ => by simp [isBlank] at h
  | .anyButNewline, h, _ => by simp [isBlank] at h
  | .bracket _, h, _ => by simp [isBlank] at h
  | .assertion _, h, _ => by simp [isBlank] at h
  | .alt _, h, _ => by simp [isBlank] at h
  | .group _ _ _, h, _ => by simp [isBlank] at h

theorem emitAll_of_allBlank (limit : Nat) : ∀ {ns : List Node}, allBlank ns = true →
    ∀ code, emitAll limit ns code = .ok code
  | [], _, code => by rw [emitAll]
  | n :: ns, h, code => by
    rw [allBlank, Bool.and_eq_true] at h
    rw [emitAll, emit_of_isBlank limit h.1]
    exact emitAll_of_allBlank limit h.2 code

end

end Node

namespace Program

/-- **Copies of the body of a loop are charged, unless it is blank.** For a body that is not blank
each copy writes an instruction at least, the same ones under every limit that leaves room for them,
and is refused under every other, so that there is no further copy when the limit is used up. For a
blank body nothing is written and nothing is refused. -/
theorem copies_charged {source : String} {flags : Flags} {pattern : Pattern}
    (h : Pattern.parse source flags = .ok pattern) {body : Node} {q : Quantifier}
    (hloop : pattern.node.Part (.loop body q)) :
    (body.isBlank = false → ∀ code : Code, ∃ code' : Code, code.size < code'.size ∧
      ∀ limit, code.size ≤ limit → body.emit limit code =
        if code'.size ≤ limit then .ok code' else .error (.programTooLarge limit)) ∧
    (body.isBlank = true → ∀ limit code, body.emit limit code = .ok code) := by
  have hbody : body.Written := by
    have hpart : pattern.node.Part body := hloop.child List.mem_cons_self
    exact (Pattern.parse_written h).1.of_part hpart
  refine ⟨fun hblank code => ?_, fun hblank limit => Node.emit_of_isBlank limit hblank⟩
  have hpos : body.codeSize ≠ 0 := by
    intro hzero
    rw [(Node.codeSize_eq_zero_iff hbody).mp hzero] at hblank
    simp at hblank
  obtain ⟨code', hsize, hcharged⟩ := Node.charges_emit body code
  exact ⟨code', by omega, hcharged⟩

/-- The copies of a row with an `x?` in it are charged, those of `y{0}` are not. -/
theorem copies_charged_nested : ∃ pattern body inner q q',
    Pattern.parse "(?:x?(?:y{0}){2}){3}" {} = .ok pattern ∧
      pattern.node.Part (.loop body q) ∧ pattern.node.Part (.loop inner q') ∧
      body.isBlank = false ∧ inner.isBlank = true ∧
      body.emit 0 {} = .error (.programTooLarge 0) ∧ inner.emit 0 {} = .ok {} := by
  let inner : Node := .loop (.char 'y' false) ⟨0, some 0, true⟩
  let body : Node := .cat [.loop (.char 'x' false) ⟨0, some 1, true⟩,
    .loop inner ⟨2, some 2, true⟩]
  let pattern : Pattern := ⟨.loop body ⟨3, some 3, true⟩, {}, #[none]⟩
  have hparse : Pattern.parse "(?:x?(?:y{0}){2}){3}" {} = .ok pattern := by
    with_unfolding_all rfl
  have hbody : pattern.node.Part (.loop body ⟨3, some 3, true⟩) := .root
  have hinner : pattern.node.Part (.loop inner ⟨2, some 2, true⟩) :=
    (hbody.child List.mem_cons_self).child (List.mem_cons_of_mem _ List.mem_cons_self)
  have hcharged : body.isBlank = false := by decide
  have hblank : inner.isBlank = true := by decide
  obtain ⟨code', hsize, hemit⟩ := (copies_charged hparse hbody).1 hcharged {}
  have hroom : ¬ code'.size ≤ 0 := Nat.not_le.mpr hsize
  exact ⟨pattern, body, inner, _, _, hparse, hbody, hinner, hcharged, hblank,
    (hemit 0 (Nat.le_refl 0)).trans (if_neg hroom), (copies_charged hparse hinner).2 hblank 0 {}⟩

/-- Nothing is written for the copies of an empty group, so that three of them fit into a limit that
leaves room for none. -/
theorem exists_copy_not_charged : ∃ pattern body q p,
    Pattern.parse "(?:){3}" {} = .ok pattern ∧ pattern.node.Part (.loop body q) ∧ q.min = 3 ∧
      (∀ limit code, body.emit limit code = .ok code) ∧
      compile 3 pattern = .ok p ∧ p.instrs.size = 3 := by
  let pattern : Pattern := ⟨.loop .empty ⟨3, some 3, true⟩, {}, #[none]⟩
  have hparse : Pattern.parse "(?:){3}" {} = .ok pattern := by
    with_unfolding_all rfl
  obtain ⟨p, hcompile, hsize⟩ : ∃ p, compile 3 pattern = .ok p ∧ p.instrs.size = 3 := by
    with_unfolding_all exact ⟨_, rfl, rfl⟩
  exact ⟨pattern, .empty, _, p, hparse, .root, rfl, fun limit => Node.emit_of_isBlank limit rfl,
    hcompile, hsize⟩

end Program

end LinearRegex
