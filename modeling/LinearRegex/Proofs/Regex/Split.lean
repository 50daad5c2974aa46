import LinearRegex.Proofs.Regex.Matches
import LinearRegex.Regex.Split

/-!
# Segments and the text

Splitting loses nothing: the segments, joined again with the matches between them, are the text. A
limit on their number leaves out the cuts at all but the first matches.

Main statement: `Regex.joinWith_split`.
-/

namespace LinearRegex

/-- Segments joined in turn with the matches between them. -/
def joinWith : List String → List Match → String
  | [], _ => ""
  | s :: _, [] => s
  | s :: segments, m :: ms => s ++ m.text ++ joinWith segments ms

namespace Haystack

variable {hay : Haystack} {cur : Cursor} {x : Cursor × Cursor} {l : List (Cursor × Cursor)}

/-- The segments of a text from a place on, given the matches that it is cut at. -/
def segments (hay : Haystack) (cur : Cursor) : List (Cursor × Cursor) → List String
  | [] => [hay.sliceFrom cur.offset]
  | x :: l => hay.slice cur.offset x.1.offset :: segments hay x.2 l

theorem length_segments (hay : Haystack) (cur : Cursor) (l : List (Cursor × Cursor)) :
    (hay.segments cur l).length = l.length + 1 := by
  induction l generalizing cur with
  | nil => rfl
  | cons x l ih => rw [segments, List.length_cons, ih, List.length_cons]

/-- With fewer cuts, the first segments are the same, and the last is all that is left. -/
theorem segments_take {n : Nat} (h : l[n]? = some x) :
    hay.segments cur (l.take (n + 1)) =
      (hay.segments cur l).take (n + 1) ++ [hay.sliceFrom x.2.offset] := by
  induction l generalizing cur n with
  | nil => simp at h
  | cons y l ih =>
    cases n with
    | zero =>
      obtain rfl := Option.some.inj h
      rfl
    | succ n =>
      have h : l[n]? = some x := h
      rw [List.take_succ_cons, segments, segments, List.take_succ_cons, ih h]
      rfl

/-- Stretches of a text, one behind the other, from a place on. -/
inductive InOrder : Cursor → List (Cursor × Cursor) → Prop
  | nil (cur : Cursor) : InOrder cur []
  | cons {cur : Cursor} {x : Cursor × Cursor} {l : List (Cursor × Cursor)}
    (start_mem : x.1 ∈ cur.onward) (stop_mem : x.2 ∈ x.1.onward) (rest : InOrder x.2 l) :
    InOrder cur (x :: l)

/-- The segments and the stretches in turn make up the text from the place on. -/
theorem toList_joinWith_segments (h : InOrder cur l) (hcur : cur ∈ hay.cursors) :
    (joinWith (hay.segments cur l)
      (l.map fun x => hay.matchAt ⟨x.1.offset, x.2.offset⟩)).toList = cur.rest := by
  induction h with
  | nil cur => rw [segments, List.map_nil, joinWith, sliceFrom_offset hcur, String.toList_ofList]
  | @cons cur x l start_mem stop_mem _ ih =>
    have hx := Cursor.mem_onward_trans hcur start_mem
    have hrest := ih (Cursor.mem_onward_trans hx stop_mem)
    rw [segments, List.map_cons, joinWith, String.toList_append, String.toList_append, hrest,
      List.append_assoc]
    calc (hay.slice cur.offset x.1.offset).toList ++
          ((hay.matchAt ⟨x.1.offset, x.2.offset⟩).text.toList ++ x.2.rest)
        = (hay.slice cur.offset x.1.offset).toList ++ x.1.rest := by
          rw [rest_eq_slice_append hx stop_mem]
          rfl
      _ = cur.rest := (rest_eq_slice_append hcur start_mem).symm

/-- What comes before a stretch makes up the text from the place on to where the stretch begins. -/
theorem byteLength_joinWith_take (h : InOrder cur l) (hcur : cur ∈ hay.cursors) {n : Nat}
    (hx : l[n]? = some x) :
    cur.offset + Utf8.byteLength (joinWith ((hay.segments cur l).take (n + 1))
      ((l.map fun x => hay.matchAt ⟨x.1.offset, x.2.offset⟩).take n)).toList = x.1.offset := by
  induction h generalizing n with
  | nil => simp at hx
  | @cons cur y l start_mem stop_mem _ ih =>
    have hslice := byteLength_slice hcur start_mem
    cases n with
    | zero =>
      obtain rfl := Option.some.inj hx
      exact hslice
    | succ n =>
      have hy := Cursor.mem_onward_trans hcur start_mem
      have hrest := ih (Cursor.mem_onward_trans hy stop_mem) hx
      have hmatch := byteLength_slice hy stop_mem
      rw [segments, List.map_cons, List.take_succ_cons, List.take_succ_cons, joinWith,
        String.toList_append, String.toList_append, Utf8.byteLength_append,
        Utf8.byteLength_append]
      show cur.offset + (_ + Utf8.byteLength (hay.slice y.1.offset y.2.offset).toList + _) = _
      omega

end Haystack

/-- The matches that remain lie one behind the other. -/
theorem Program.Remaining.inOrder {p : Program} {hay : Haystack} {next : Option Cursor}
    {last : Option Nat} {cur : Cursor} {l : List (Cursor × Cursor)}
    (h : p.Remaining hay next last l) (hcur : cur ∈ hay.cursors)
    (hhead : ∀ x ∈ l.head?, cur.offset ≤ x.1.offset) : Haystack.InOrder cur l := by
  have hbounds : ∀ x ∈ l, x.1 ∈ hay.cursors ∧ x.2 ∈ x.1.onward := by
    intro x hx
    obtain ⟨hx₁, hx₂, -⟩ := h.bounds_of_mem hx
    exact ⟨hx₁, hx₂⟩
  have hchain := h.isChain
  clear h
  induction l generalizing cur with
  | nil => exact .nil cur
  | cons x l ih =>
    obtain ⟨hx₁, hx₂⟩ := hbounds x List.mem_cons_self
    obtain ⟨hfollows, hchain⟩ := List.isChain_cons.mp hchain
    refine .cons ((Haystack.mem_onward_iff_of_mem_cursors hcur).mpr ⟨hx₁, hhead x rfl⟩) hx₂ ?_
    exact ih (Cursor.mem_onward_trans hx₁ hx₂) (fun y hy => (hfollows y hy).stop_le)
      (fun y hy => hbounds y (List.mem_cons_of_mem x hy)) hchain

/-! ## Without a limit -/

namespace Split

variable {re : Regex} {hay : Haystack} {finder : Matches} {cur : Cursor}
variable {l : List (Cursor × Cursor)} {s : Split}

/-- The last segment has been given. -/
def IsDone (s : Split) : Prop := s.finder.hay.size < s.last

theorem next_of_isDone (h : s.IsDone) : s.next = (none, s) := if_pos h

theorem remainder_of_isDone (h : s.IsDone) : s.remainder = (none, s) := if_pos h

/-- At a boundary there is something left to give, be it the empty text at the end. -/
theorem remainder_of_mem_cursors (finder : Matches) (hcur : cur ∈ finder.hay.cursors) :
    remainder ⟨finder, cur.offset⟩ =
      (some (finder.hay.sliceFrom cur.offset), ⟨finder, finder.hay.size + 1⟩) :=
  if_neg (Nat.not_lt.mpr (Haystack.offset_le_size hcur))

theorem next_of_mem_cursors (finder : Matches) (hcur : cur ∈ finder.hay.cursors) :
    next ⟨finder, cur.offset⟩ =
      match finder.advance with
      | (none, finder) => remainder ⟨finder, cur.offset⟩
      | (some span, finder) =>
        (some (finder.hay.slice cur.offset span.start), ⟨finder, span.stop⟩) :=
  if_neg (Nat.not_lt.mpr (Haystack.offset_le_size hcur))

/-- Where no matches remain, the next segment is the last. -/
theorem next_nil (h : finder.Holds re hay 2 []) (hcur : cur ∈ hay.cursors) : ∃ s',
    next ⟨finder, cur.offset⟩ = (some (hay.sliceFrom cur.offset), s') ∧ s'.IsDone := by
  obtain ⟨hnone, hrest⟩ := Matches.gives_advance h (Nat.le_refl 2)
  cases hstep : finder.advance with
  | mk span finder' =>
    rw [hstep] at hnone hrest
    obtain rfl : span = none := hnone
    have hhay : finder'.hay = hay := hrest.hay_eq
    refine ⟨⟨finder', finder'.hay.size + 1⟩, ?_, Nat.lt_succ_self _⟩
    rw [next_of_mem_cursors finder (h.hay_eq ▸ hcur), hstep]
    rw [← hhay] at hcur ⊢
    exact remainder_of_mem_cursors _ hcur

/-- Where matches remain, the next segment ends where the first of them begins. -/
theorem next_cons {x : Cursor × Cursor} (h : finder.Holds re hay 2 (x :: l))
    (hcur : cur ∈ hay.cursors) : ∃ finder', finder'.Holds re hay 2 l ∧
      next ⟨finder, cur.offset⟩ =
        (some (hay.slice cur.offset x.1.offset), ⟨finder', x.2.offset⟩) := by
  obtain ⟨hspan, hrest, -⟩ := Matches.gives_advance h (Nat.le_refl 2)
  cases hstep : finder.advance with
  | mk span finder' =>
    rw [hstep] at hspan hrest
    obtain rfl : span = some ⟨x.1.offset, x.2.offset⟩ := hspan
    have hhay : finder'.hay = hay := hrest.hay_eq
    refine ⟨finder', hrest, ?_⟩
    rw [next_of_mem_cursors finder (h.hay_eq ▸ hcur), hstep, ← hhay]

/-- Behind the first match that remains lies the next boundary to go on from. -/
theorem stop_mem_cursors {x : Cursor × Cursor} (h : finder.Holds re hay 2 (x :: l)) :
    x.2 ∈ hay.cursors := by
  obtain ⟨hx₁, hx₂, -⟩ := h.remaining.bounds_of_mem List.mem_cons_self
  exact Cursor.mem_onward_trans hx₁ hx₂

theorem yields_nil (h : s.IsDone) : Yields next s [] := by
  refine yields_nil_of_invariant IsDone (fun s hs => ?_) h
  rw [next_of_isDone hs]
  exact ⟨rfl, hs⟩

/-- **Going through the segments** gives those between the matches that remain. -/
theorem yields_next (h : finder.Holds re hay 2 l) (hcur : cur ∈ hay.cursors) :
    Yields next ⟨finder, cur.offset⟩ (hay.segments cur l) := by
  induction l generalizing finder cur with
  | nil =>
    obtain ⟨s', hnext, hdone⟩ := next_nil h hcur
    refine .cons (congrArg Prod.fst hnext) ?_
    rw [hnext]
    exact yields_nil hdone
  | cons x l ih =>
    obtain ⟨finder', hrest, hnext⟩ := next_cons h hcur
    refine .cons (congrArg Prod.fst hnext) ?_
    rw [hnext]
    exact ih hrest (stop_mem_cursors h)

end Split

/-! ## With a limit -/

namespace SplitLimited

variable {re : Regex} {hay : Haystack} {finder : Matches} {cur : Cursor}
variable {l : List (Cursor × Cursor)} {s : SplitLimited}

/-- Each segment uses up one of those that may be given. -/
theorem left_next (s : SplitLimited) : s.next.2.left = s.left - 1 := by
  obtain ⟨split, left⟩ := s
  match left with
  | 0 => rfl
  | 1 => rfl
  | _ + 2 => rfl

theorem left_afterCalls (s : SplitLimited) (k : Nat) :
    (afterCalls next k s).left = s.left - k := by
  induction k generalizing s with
  | zero => rfl
  | succ k ih => rw [afterCalls, ih, left_next, Nat.sub_sub, Nat.add_comm]

/-- No segment may be given any more, or all have been. -/
def IsDone (s : SplitLimited) : Prop := s.left = 0 ∨ s.split.IsDone

theorem next_of_isDone (h : s.IsDone) : s.next.1 = none ∧ s.next.2.IsDone := by
  obtain ⟨split, left⟩ := s
  match left with
  | 0 => exact ⟨rfl, Or.inl rfl⟩
  | 1 =>
    have hdone : split.IsDone := h.resolve_left Nat.one_ne_zero
    exact ⟨congrArg Prod.fst (Split.remainder_of_isDone hdone), Or.inl rfl⟩
  | left + 2 =>
    have hdone : split.IsDone := h.resolve_left (Nat.succ_ne_zero _)
    have hnext := Split.next_of_isDone hdone
    refine ⟨congrArg Prod.fst hnext, Or.inr ?_⟩
    show split.next.2.IsDone
    rw [hnext]
    exact hdone

theorem yields_nil (h : s.IsDone) : Yields next s [] :=
  yields_nil_of_invariant IsDone (fun _ => next_of_isDone) h

/-- **Going through at most so many segments** gives those of a text that is cut at all but the
first matches no more. -/
theorem yields_next (h : finder.Holds re hay 2 l) (hcur : cur ∈ hay.cursors) (n : Nat) :
    Yields next ⟨⟨finder, cur.offset⟩, n + 1⟩ (hay.segments cur (l.take n)) := by
  induction n generalizing finder cur l with
  | zero =>
    have hremainder := Split.remainder_of_mem_cursors finder (h.hay_eq ▸ hcur)
    refine .cons ?_ (yields_nil (Or.inl rfl))
    rw [← h.hay_eq]
    exact congrArg Prod.fst hremainder
  | succ n ih =>
    cases l with
    | nil =>
      obtain ⟨s', hnext, hdone⟩ := Split.next_nil h hcur
      refine .cons (congrArg Prod.fst hnext) (yields_nil (Or.inr ?_))
      show (Split.next ⟨finder, cur.offset⟩).2.IsDone
      rw [hnext]
      exact hdone
    | cons x l =>
      obtain ⟨finder', hrest, hnext⟩ := Split.next_cons h hcur
      refine .cons (congrArg Prod.fst hnext) ?_
      have hstep : (next ⟨⟨finder, cur.offset⟩, n + 2⟩).2 = ⟨⟨finder', x.2.offset⟩, n + 1⟩ :=
        congrArg (fun step => SplitLimited.mk step.2 (n + 1)) hnext
      rw [hstep]
      exact ih hrest (Split.stop_mem_cursors h)

end SplitLimited

/-! ## The segments of a text -/

namespace Regex

variable {re : Regex} {hay : Haystack} {l : List (Cursor × Cursor)}

theorem yields_split (h : re.program.Remaining hay (some hay.start) none l) :
    Yields Split.next (.ofRegex re hay) (hay.segments hay.start l) := by
  have hyields := Split.yields_next (Matches.holds_ofWidth h 2) hay.start_mem_cursors
  exact hyields

theorem split_eq (h : re.program.Remaining hay (some hay.start) none l) :
    re.split hay = hay.segments hay.start l := by
  refine (yields_split h).collect_all ?_
  rw [Haystack.length_segments]
  exact Nat.succ_le_succ h.length_le

theorem yields_splitAtMost (h : re.program.Remaining hay (some hay.start) none l) (n : Nat) :
    Yields SplitLimited.next (.ofRegex re hay (n + 1)) (hay.segments hay.start (l.take n)) := by
  have hyields := SplitLimited.yields_next (Matches.holds_ofWidth h 2) hay.start_mem_cursors n
  exact hyields

/-- A limit leaves out the cuts at the matches behind the first ones. -/
theorem splitAtMost_eq (h : re.program.Remaining hay (some hay.start) none l) (n : Nat) :
    re.splitAtMost hay (n + 1) = hay.segments hay.start (l.take n) := by
  refine (yields_splitAtMost h n).collect_all ?_
  have hle := h.length_le
  rw [Haystack.length_segments, List.length_take]
  unfold Matches.bound
  omega

theorem joinWith_split_of_remaining (h : re.program.Remaining hay (some hay.start) none l) :
    joinWith (re.split hay) (re.findAll hay) = hay.text := by
  have hinOrder := h.inOrder hay.start_mem_cursors fun _ _ => Nat.zero_le _
  rw [split_eq h, findAll_eq h, ← String.toList_inj,
    Haystack.toList_joinWith_segments hinOrder hay.start_mem_cursors]
  exact hay.chars_eq

/-- Each match is a stretch that remains from the start. -/
theorem exists_of_getElem?_findAll (h : re.program.Remaining hay (some hay.start) none l) {n : Nat}
    {m : Match} (hm : (re.findAll hay)[n]? = some m) :
    ∃ x, l[n]? = some x ∧ hay.matchAt ⟨x.1.offset, x.2.offset⟩ = m := by
  rw [findAll_eq h, List.getElem?_map] at hm
  exact Option.map_eq_some_iff.mp hm

/-- Up to where a match begins the text is that of the segments and matches before it. -/
theorem byteLength_joinWith_split (h : re.program.Remaining hay (some hay.start) none l) {n : Nat}
    {m : Match} (hm : (re.findAll hay)[n]? = some m) :
    Utf8.byteLength (joinWith ((re.split hay).take (n + 1))
      ((re.findAll hay).take n)).toList = m.start := by
  have hinOrder := h.inOrder hay.start_mem_cursors fun _ _ => Nat.zero_le _
  obtain ⟨x, hx, rfl⟩ := exists_of_getElem?_findAll h hm
  have hlength := Haystack.byteLength_joinWith_take hinOrder hay.start_mem_cursors hx
  rw [split_eq h, findAll_eq h, ← Nat.zero_add (Utf8.byteLength _)]
  exact hlength

/-- With a limit that stops behind a match, the last segment is all that lies behind the match. -/
theorem exists_splitAtMost_eq (h : re.program.Remaining hay (some hay.start) none l) {n : Nat}
    {m : Match} (hm : (re.findAll hay)[n]? = some m) :
    ∃ rest passed, re.splitAtMost hay (n + 2) = (re.split hay).take (n + 1) ++ [rest] ∧
      hay.chars = passed ++ rest.toList ∧ Utf8.byteLength passed = m.stop := by
  obtain ⟨x, hx, rfl⟩ := exists_of_getElem?_findAll h hm
  obtain ⟨hx₁, hx₂, -⟩ := h.bounds_of_mem (List.mem_of_getElem? hx)
  have hstop := Cursor.mem_onward_trans hx₁ hx₂
  obtain ⟨passed, hchars, hoffset⟩ := Haystack.exists_passed hstop
  refine ⟨hay.sliceFrom x.2.offset, passed, ?_, ?_, ?_⟩
  · rw [splitAtMost_eq h, split_eq h, Haystack.segments_take hx]
  · rw [Haystack.sliceFrom_offset hstop, String.toList_ofList, hchars]
  · rw [← Utf8.length_encode]
    exact hoffset.symm

theorem splitAtMost_one (h : re.program.Remaining hay (some hay.start) none l) :
    re.splitAtMost hay 1 = [hay.text] := by
  have htext : String.ofList hay.start.rest = hay.text := by
    rw [← String.toList_inj, String.toList_ofList]
    exact hay.chars_eq
  rw [splitAtMost_eq h, List.take_zero, Haystack.segments,
    Haystack.sliceFrom_offset hay.start_mem_cursors, htext]

/-- A limit that leaves room for all segments leaves out none. -/
theorem splitAtMost_eq_split (h : re.program.Remaining hay (some hay.start) none l) {n : Nat}
    (hn : l.length + 1 ≤ n) : re.splitAtMost hay n = re.split hay := by
  cases n with
  | zero => exact absurd hn (Nat.not_succ_le_zero _)
  | succ n =>
    rw [splitAtMost_eq h, split_eq h, List.take_of_length_le (Nat.le_of_succ_le_succ hn)]

theorem length_splitAtMost_le (h : re.program.Remaining hay (some hay.start) none l) (n : Nat) :
    (re.splitAtMost hay n).length ≤ n := by
  cases n with
  | zero => exact Nat.le_refl 0
  | succ n =>
    rw [splitAtMost_eq h, Haystack.length_segments, List.length_take]
    omega

/-- **The segments make up the text.** There is one more of them than there are matches; joined in
turn with the matches they are the text, and each ends where the next match begins. With a limit
there are no segments if none may be given, all of them if as many may be given, and else the first
ones and then all that is left of the text. After the last segment nothing is given for ever; and a
limited splitting never tells that there are fewer segments to come than there are. -/
theorem joinWith_split {pattern : String} {options : Options}
    (h : build pattern options = .ok re) (hay : Haystack) :
    (re.split hay).length = (re.findAll hay).length + 1 ∧
    joinWith (re.split hay) (re.findAll hay) = hay.text ∧
    (∀ n m, (re.findAll hay)[n]? = some m →
      Utf8.byteLength (joinWith ((re.split hay).take (n + 1))
        ((re.findAll hay).take n)).toList = m.start) ∧
    re.splitAtMost hay 0 = [] ∧
    re.splitAtMost hay 1 = [hay.text] ∧
    (∀ n, (re.findAll hay).length + 1 ≤ n → re.splitAtMost hay n = re.split hay) ∧
    (∀ n m, (re.findAll hay)[n]? = some m →
      ∃ rest passed, re.splitAtMost hay (n + 2) = (re.split hay).take (n + 1) ++ [rest] ∧
        hay.chars = passed ++ rest.toList ∧ Utf8.byteLength passed = m.stop) ∧
    Yields Split.next (.ofRegex re hay) (re.split hay) ∧
    (∀ n, Yields SplitLimited.next (.ofRegex re hay n) (re.splitAtMost hay n)) ∧
    ∀ n k, ∃ items upper,
      Yields SplitLimited.next (afterCalls SplitLimited.next k (.ofRegex re hay n)) items ∧
      (afterCalls SplitLimited.next k (.ofRegex re hay n)).sizeHint.2 = some upper ∧
      items.length ≤ upper := by
  obtain ⟨tree, exit, hc, hw, -⟩ := exists_compiled_of_build h
  obtain ⟨l, hl⟩ := hc.exists_remaining hw hay.start_mem_cursors none
  have hlength : (re.findAll hay).length = l.length := by rw [findAll_eq hl, List.length_map]
  have hyields : ∀ n, Yields SplitLimited.next (.ofRegex re hay n) (re.splitAtMost hay n) := by
    intro n
    cases n with
    | zero => exact SplitLimited.yields_nil (Or.inl rfl)
    | succ n => exact splitAtMost_eq hl n ▸ yields_splitAtMost hl n
  refine ⟨?_, joinWith_split_of_remaining hl, ?_, rfl, ?_, ?_, ?_, ?_, hyields, ?_⟩
  · rw [split_eq hl, Haystack.length_segments, hlength]
  · intro n m hm
    exact byteLength_joinWith_split hl hm
  · exact splitAtMost_one hl
  · intro n hn
    exact splitAtMost_eq_split hl (hlength ▸ hn)
  · intro n m hm
    exact exists_splitAtMost_eq hl hm
  · exact split_eq hl ▸ yields_split hl
  · intro n k
    refine ⟨_, _, (hyields n).afterCalls k, rfl, ?_⟩
    rw [SplitLimited.left_afterCalls, List.length_drop]
    exact Nat.sub_le_sub_right (length_splitAtMost_le hl n) k

/-- Cuts at empty matches at both ends of a text, and at one between them that is not empty. -/
theorem joinWith_split_star : ∃ re, build "a*" = .ok re ∧
    re.split (.ofString "baac") = ["", "b", "c", ""] ∧
    re.splitAtMost (.ofString "baac") 2 = ["", "baac"] ∧
    joinWith ["", "b", "c", ""] (re.findAll (.ofString "baac")) = "baac" := by
  obtain ⟨re, hbuild, hsplit, hatMost⟩ : ∃ re, build "a*" = .ok re ∧
      re.split (.ofString "baac") = ["", "b", "c", ""] ∧
      re.splitAtMost (.ofString "baac") 2 = ["", "baac"] := by
    with_unfolding_all exact ⟨_, rfl, by decide +kernel, by decide +kernel⟩
  obtain ⟨-, hjoin, -⟩ := joinWith_split hbuild (.ofString "baac")
  exact ⟨re, hbuild, hsplit, hatMost, hsplit ▸ hjoin⟩

end Regex

end LinearRegex
