import LinearRegex.Prefilter.Beginning
import LinearRegex.Proofs.Prefilter.ByteSet
import LinearRegex.Proofs.Text.Bytes

/-!
# Prefilters land on boundaries

A prefilter looks for bytes, and its literal may end within a character. But what it looks for never
begins with a byte that goes on with a character, and all other bytes stand at boundaries; so
wherever it lands, a search can go on.

Main statement: `Node.exists_boundary_of_next?`.
-/

namespace LinearRegex

/-! ## Continuations -/

namespace Utf8

/-- Whether a byte goes on with a character that has begun before. -/
def IsContinuation (b : UInt8) : Prop := 0x80 ≤ b ∧ b ≤ 0xBF

theorem isContinuation_ofNat (n : Nat) : IsContinuation (UInt8.ofNat (n % 64 + 128)) := by
  unfold IsContinuation
  rw [UInt8.le_iff_toNat_le, UInt8.le_iff_toNat_le,
    UInt8.toNat_ofNat_of_lt' (show n % 64 + 128 < 256 by omega)]
  refine ⟨?_, ?_⟩
  · show 128 ≤ n % 64 + 128
    omega
  · show n % 64 + 128 ≤ 191
    omega

/-- All bytes of a character behind its first one are continuations. -/
theorem isContinuation_of_mem_tail {c : Char} {b : UInt8}
    (h : b ∈ (String.utf8EncodeChar c).tail) : IsContinuation b := by
  unfold String.utf8EncodeChar at h
  dsimp only at h
  split at h
  · simp at h
  · split at h
    · rw [List.tail_cons, List.mem_singleton] at h
      exact h ▸ isContinuation_ofNat _
    · split at h
      · simp only [List.tail_cons, List.mem_cons, List.not_mem_nil, or_false] at h
        rcases h with rfl | rfl
        · exact isContinuation_ofNat _
        · exact isContinuation_ofNat _
      · simp only [List.tail_cons, List.mem_cons, List.not_mem_nil, or_false] at h
        rcases h with rfl | rfl | rfl
        · exact isContinuation_ofNat _
        · exact isContinuation_ofNat _
        · exact isContinuation_ofNat _

/-- A first byte is none. -/
theorem not_isContinuation_firstByte (n : Nat) : ¬ IsContinuation (firstByte n) := by
  have h : (firstByte n).toNat < 0x80 ∨ 0xC0 ≤ (firstByte n).toNat := by
    rw [toNat_firstByte]
    split
    · exact Or.inl ‹_›
    · split
      · omega
      · split <;> omega
  unfold IsContinuation
  rw [UInt8.le_iff_toNat_le, UInt8.le_iff_toNat_le]
  show ¬ (128 ≤ (firstByte n).toNat ∧ (firstByte n).toNat ≤ 191)
  omega

theorem not_isContinuation_of_head {c : Char} {b : UInt8} {bs : List UInt8}
    (h : String.utf8EncodeChar c = b :: bs) : ¬ IsContinuation b := by
  have hhead := head?_utf8EncodeChar c
  rw [h, List.head?_cons] at hhead
  rw [Option.some.inj hhead]
  exact not_isContinuation_firstByte c.toNat

end Utf8

open Utf8

namespace Cursor

/-- Where a byte is no continuation, there is a boundary. -/
theorem exists_boundary_of_not_isContinuation {cur : Cursor} {k : Nat} {b : UInt8}
    (hb : (Utf8.encode cur.rest)[k]? = some b) (hnot : ¬ IsContinuation b) :
    ∃ q ∈ cur.onward, q.offset = cur.offset + k := by
  induction cur using onward_induction generalizing k with
  | last cur hr =>
    rw [hr] at hb
    simp at hb
  | step cur c cs hr ih =>
    rw [hr, Utf8.encode_cons] at hb
    rw [onward_of_rest_cons hr]
    by_cases hk : k < (String.utf8EncodeChar c).length
    · rw [List.getElem?_append_left hk] at hb
      cases k with
      | zero => exact ⟨cur, List.mem_cons_self, rfl⟩
      | succ k =>
        rw [← List.getElem?_tail] at hb
        exact absurd (isContinuation_of_mem_tail (List.mem_of_getElem? hb)) hnot
    · rw [List.getElem?_append_right (Nat.le_of_not_lt hk), ← rest_next hr] at hb
      obtain ⟨q, hq, hoffset⟩ := ih hb
      refine ⟨q, List.mem_cons_of_mem _ hq, ?_⟩
      rw [hoffset, offset_next hr, ← String.length_utf8EncodeChar]
      omega

end Cursor

theorem Haystack.exists_boundary_of_not_isContinuation {hay : Haystack} {cur : Cursor} {o : Nat}
    {b : UInt8} (hcur : cur ∈ hay.cursors) (hle : cur.offset ≤ o) (hb : hay.bytes[o]? = some b)
    (hnot : ¬ IsContinuation b) : ∃ q ∈ cur.onward, q.offset = o := by
  have hrest := getElem?_bytes_of_mem_cursors hcur (o - cur.offset)
  rw [Nat.add_sub_cancel' hle, hb] at hrest
  obtain ⟨q, hq, hoffset⟩ := Cursor.exists_boundary_of_not_isContinuation hrest.symm hnot
  exact ⟨q, hq, by omega⟩

/-! ## What is looked for begins with a first byte -/

namespace ByteSet

/-- Whether no member is a continuation. -/
def FreeOfContinuations (s : ByteSet) : Prop := ∀ b, s.contains b = true → ¬ IsContinuation b

variable {s t : ByteSet}

theorem FreeOfContinuations.union (hs : s.FreeOfContinuations) (ht : t.FreeOfContinuations) :
    (s.union t).FreeOfContinuations := by
  intro b hb
  exact ((contains_union _ _ _).mp hb).elim (hs b) (ht b)

theorem freeOfContinuations_firstBytes (chars : CharSet) :
    (firstBytes chars).FreeOfContinuations := by
  intro b hb
  obtain ⟨n, -, -, rfl⟩ := contains_firstBytes_iff.mp hb
  exact not_isContinuation_firstByte n

/-- A set without continuations is found at boundaries only. -/
theorem FreeOfContinuations.exists_boundary (hs : s.FreeOfContinuations) {hay : Haystack}
    {cur : Cursor} {o : Nat} (hcur : cur ∈ hay.cursors)
    (h : s.findFrom hay.bytes cur.offset = some o) : ∃ q ∈ cur.onward, q.offset = o := by
  have hfirst := s.isFirst_findFrom (Haystack.offset_le_size hcur)
  rw [h] at hfirst
  obtain ⟨⟨hle, b, hmem, hb⟩, -⟩ := hfirst
  exact Haystack.exists_boundary_of_not_isContinuation hcur hle hb (hs b (mem_toList.mp hmem))

end ByteSet

namespace Beginning

/-- Whether what is known begins with a byte that is no continuation. -/
def Leading : Beginning → Prop
  | .anything => True
  | .bytes bs => ∃ b rest, bs = b :: rest ∧ ¬ IsContinuation b
  | .oneOf s => s.FreeOfContinuations

variable {as bs : List UInt8} {a b : Beginning}

theorem Leading.firstOf (h : (Beginning.bytes bs).Leading) : (firstOf bs).FreeOfContinuations := by
  obtain ⟨b, rest, rfl, hb⟩ := h
  intro c hc
  rw [Beginning.firstOf, ByteSet.contains_ofList, List.take_succ_cons, List.take_zero,
    List.mem_singleton] at hc
  exact hc ▸ hb

theorem Leading.join (ha : a.Leading) (hb : b.Leading) : (a.join b).Leading := by
  cases a with
  | anything => trivial
  | bytes as =>
    cases b with
    | anything => trivial
    | bytes bs =>
      rw [Beginning.join]
      split
      · exact ha.firstOf.union hb.firstOf
      · next hne =>
        -- What two lists share begins as the first of them does.
        obtain ⟨x, rest, rfl, hx⟩ := ha
        obtain ⟨y, rest', rfl, -⟩ := hb
        rw [sharedStart] at hne ⊢
        split
        · exact ⟨x, _, rfl, hx⟩
        · next h =>
          rw [if_neg h] at hne
          exact absurd rfl hne
    | oneOf t => exact hb.union ha.firstOf
  | oneOf s =>
    cases b with
    | anything => trivial
    | bytes bs => exact ha.union hb.firstOf
    | oneOf t => exact ha.union hb

theorem leading_utf8EncodeChar (c : Char) :
    (Beginning.bytes (String.utf8EncodeChar c)).Leading := by
  cases h : String.utf8EncodeChar c with
  | nil => exact absurd h String.utf8EncodeChar_ne_nil
  | cons b bs => exact ⟨b, bs, rfl, not_isContinuation_of_head h⟩

theorem runBytes_cases (n : Node) :
    runBytes n = [] ∨ ∃ c, runBytes n = String.utf8EncodeChar c := by
  unfold runBytes
  split
  · exact Or.inr ⟨_, rfl⟩
  · exact Or.inl rfl

/-- A row of literal characters begins with the first of them. -/
theorem leading_runBytes {ns : List Node} (h : ns.flatMap runBytes ≠ []) :
    (Beginning.bytes (ns.flatMap runBytes)).Leading := by
  induction ns with
  | nil => exact absurd rfl h
  | cons n ns ih =>
    rw [List.flatMap_cons] at h ⊢
    rcases runBytes_cases n with hn | ⟨c, hn⟩
    · rw [hn, List.nil_append] at h ⊢
      exact ih h
    · obtain ⟨b, rest, heq, hb⟩ := leading_utf8EncodeChar c
      exact ⟨b, rest ++ ns.flatMap runBytes, by rw [hn, heq, List.cons_append], hb⟩

theorem leading_ofBracket (b : Bracket) : (ofBracket b).Leading := by
  unfold ofBracket
  split
  · exact ByteSet.freeOfContinuations_firstBytes _
  · trivial

mutual

theorem leading_ofNode : ∀ {n : Node} {b : Beginning}, ofNode? n = some b → b.Leading
  | .empty, _, h => by
    rw [ofNode?] at h
    obtain rfl := Option.some.inj h
    trivial
  | .char c false, _, h => by
    rw [ofNode?] at h
    obtain rfl := Option.some.inj h
    exact leading_utf8EncodeChar c
  | .char _ true, _, h => by
    rw [ofNode?] at h
    obtain rfl := Option.some.inj h
    trivial
  | .any, _, h => by
    rw [ofNode?] at h
    obtain rfl := Option.some.inj h
    trivial
  | .anyButNewline, _, h => by
    rw [ofNode?] at h
    obtain rfl := Option.some.inj h
    trivial
  | .assertion _, _, h => by
    rw [ofNode?] at h
    simp at h
  | .bracket br, _, h => by
    rw [ofNode?] at h
    obtain rfl := Option.some.inj h
    exact leading_ofBracket br
  | .cat nodes, _, h => by
    rw [ofNode?] at h
    split at h
    · exact leading_ofFirst h
    · next hne =>
      obtain rfl := Option.some.inj h
      exact leading_runBytes hne
  | .alt branches, _, h => by
    rw [ofNode?] at h
    obtain rfl := Option.some.inj h
    exact leading_ofBranches (by simp)
  | .loop body q, _, h => by
    rw [ofNode?] at h
    split at h
    · exact leading_ofNode h
    · obtain rfl := Option.some.inj h
      trivial
  | .group body _ _, _, h => by
    rw [ofNode?] at h
    exact leading_ofNode h

theorem leading_ofFirst : ∀ {ns : List Node} {b : Beginning}, ofFirst? ns = some b → b.Leading
  | [], _, h => by
    rw [ofFirst?] at h
    simp at h
  | n :: ns, _, h => by
    rw [ofFirst?] at h
    split at h
    · exact leading_ofFirst h
    · exact leading_ofNode h

theorem leading_ofBranches : ∀ {ns : List Node} {known : Option Beginning},
    (∀ a, known = some a → a.Leading) → (ofBranches known ns).Leading
  | [], known, hknown => by
    rw [ofBranches]
    cases known with
    | none => trivial
    | some a => exact hknown a rfl
  | n :: ns, known, hknown => by
    rw [ofBranches]
    split
    · trivial
    · next b hb =>
      have hlead := leading_ofNode hb
      split
      · exact leading_ofBranches fun a ha => Option.some.inj ha ▸ hlead
      · next a =>
        refine leading_ofBranches fun x hx => ?_
        obtain rfl := Option.some.inj hx
        exact (hknown a rfl).join hlead

end

end Beginning

/-! ## Where a prefilter lands -/

section

variable {hay : Haystack} {cur : Cursor} {o : Nat} (hcur : cur ∈ hay.cursors)
include hcur

theorem Beginning.exists_boundary {b : Beginning} (hb : b.Leading)
    (h : b.prefilter.next? hay.bytes cur.offset = some o) : ∃ q ∈ cur.onward, q.offset = o := by
  unfold prefilter at h
  split at h
  · exact ⟨cur, cur.mem_onward_self, Option.some.inj h⟩
  · exact ⟨cur, cur.mem_onward_self, Option.some.inj h⟩
  · obtain ⟨x, rest, rfl, hx⟩ := hb
    have hfirst := Literal.isFirst_findFrom ⟨x :: rest⟩ (Haystack.offset_le_size hcur)
    rw [show Literal.findFrom ⟨x :: rest⟩ hay.bytes cur.offset = some o from h] at hfirst
    obtain ⟨⟨hle, -, hoccurs⟩, -⟩ := hfirst
    exact Haystack.exists_boundary_of_not_isContinuation hcur hle
      (hoccurs 0 (Nat.zero_lt_succ _)) hx
  · split at h
    · exact ⟨cur, cur.mem_onward_self, Option.some.inj h⟩
    · exact ByteSet.FreeOfContinuations.exists_boundary hb hcur h

/-- **A prefilter lands on a boundary that is not before the place it is asked at.** -/
theorem Node.exists_boundary_of_next? {n : Node}
    (h : n.prefilter.next? hay.bytes cur.offset = some o) : ∃ q ∈ cur.onward, q.offset = o := by
  unfold prefilter at h
  split at h
  · rw [Prefilter.next?] at h
    split at h
    · next hzero => exact ⟨cur, cur.mem_onward_self, hzero.trans (Option.some.inj h)⟩
    · simp at h
  · split at h
    · exact ⟨cur, cur.mem_onward_self, Option.some.inj h⟩
    · refine Beginning.exists_boundary hcur ?_ h
      cases hb : Beginning.ofNode? n with
      | none => trivial
      | some b => exact Beginning.leading_ofNode hb

end

end LinearRegex
