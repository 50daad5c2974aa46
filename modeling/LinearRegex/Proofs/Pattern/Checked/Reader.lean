import LinearRegex.Proofs.Pattern.Checked.Pieces

/-!
# The descent keeps step with the reader

Whenever a part of a pattern has been read by descent, the reader that takes in one lexeme after the
other has come to the same place, with the same flags, names and number of open groups. Where the
descent blames the pattern, the reader does so too: with the lexeme that comes next, or with a later
one that closes a group, or at the end.

Main statement: `group_follows` for groups, by the alternations in them.
-/

namespace LinearRegex.Pattern

open Source

variable {α β : Type} {s t u : Source} {r r' r₁ : Reader} {e : PatternError} {o n : Nat}

/-! ## What comes of a pattern -/

namespace Reader

variable {lx : Lexeme}

/-- What comes of a pattern that has been read up to a place. -/
def complete (r : Reader) (s : Source) : Except PatternError Pattern :=
  match r.run s with
  | .error e => .error e
  | .ok r => r.finish

theorem complete_of_step (hnext : Lexeme.next? s = some (lx, t)) (hstep : r.step lx = .ok r') :
    r.complete s = r'.complete t := by
  unfold complete
  rw [run_of_next? hnext hstep]

theorem complete_of_step_error (hnext : Lexeme.next? s = some (lx, t))
    (hstep : r.step lx = .error e) : r.complete s = .error e := by
  unfold complete
  rw [run_eq_foldlM, Lexeme.all_of_next?_eq_some hnext, List.foldlM_cons, hstep]
  rfl

theorem complete_nil (r : Reader) (o : Nat) : r.complete ⟨o, []⟩ = r.finish := by
  unfold complete
  rw [run_nil]

theorem closing_of_finish {body : Node} {g : OpenGroup} {groups : List OpenGroup}
    (hfinish : r.branches.finish = .ok body) (o : Nat) (hgroups : r.groups = g :: groups) :
    r.closing o =
      .ok { r with flags := g.flags, groups, branches := g.around.push (g.piece body) } := by
  unfold closing
  rw [hfinish, hgroups]
  rfl

/-- Where an alternation must end and cannot, the pattern is at fault. -/
theorem complete_of_finish_error (hfinish : r.branches.finish = .error e)
    (hend : ∀ c ∈ s.rest.head?, c = ')') : r.complete s = .error e := by
  obtain ⟨o, cs⟩ := s
  cases cs with
  | nil =>
    rw [complete_nil]
    unfold finish
    rw [hfinish]
  | cons c cs =>
    obtain rfl := hend c rfl
    refine complete_of_step_error (Lexeme.next?_closing o cs) ?_
    change r.closing o = .error e
    unfold closing
    rw [hfinish]

end Reader

namespace Checked

/-! ## From one place to a later one -/

/-- The state of the descent where the reader has come to a place. -/
def stateAt (r : Reader) (s : Source) : State := ⟨s, r.flags, r.names, r.groups.length⟩

/-- The reader gets from one place to a later one, where the same groups are open. -/
structure Advances (r : Reader) (s : Source) (r' : Reader) (s' : Source) : Prop where
  complete : r.complete s = r'.complete s'
  groups : r'.groups = r.groups
  names : ∃ more, r'.names = r.names ++ more
  reaches : s.Reaches s'

namespace Advances

theorem refl (r : Reader) (s : Source) : Advances r s r s := ⟨rfl, rfl, ⟨#[], by simp⟩, .refl s⟩

theorem trans (h : Advances r s r₁ t) (h' : Advances r₁ t r' u) : Advances r s r' u := by
  refine ⟨h.complete.trans h'.complete, h'.groups.trans h.groups, ?_, h.reaches.trans h'.reaches⟩
  obtain ⟨more, hmore⟩ := h.names
  obtain ⟨more', hmore'⟩ := h'.names
  exact ⟨more ++ more', by rw [hmore', hmore, Array.append_assoc]⟩

/-- A lexeme that only changes the alternation. -/
theorem of_step {lx : Lexeme} {branches : Branches} (hnext : Lexeme.next? s = some (lx, t))
    (hstep : r.step lx = .ok { r with branches }) : Advances r s { r with branches } t :=
  ⟨Reader.complete_of_step hnext hstep, rfl, ⟨#[], by simp⟩, (Lexeme.placed_of_next? hnext).2⟩

end Advances

/-- What comes of a part of the descent: the reader blames the pattern in the same way, or gets to a
later place, and what has been read there is as it should be. -/
inductive Follows (r : Reader) (s : Source) (P : α → Reader → Source → Prop) :
    Reading (α × State) → Prop
  | fault {e : PatternError} (h : r.complete s = .error e) : Follows r s P (sure (.error e))
  | result {a : α} {r' : Reader} {s' : Source} (h : Advances r s r' s') (ha : P a r' s') :
    Follows r s P (pure (a, stateAt r' s'))

namespace Follows

variable {P : α → Reader → Source → Prop} {Q : β → Reader → Source → Prop}
  {x : Reading (α × State)}

theorem mono {Q : α → Reader → Source → Prop} (hx : Follows r s P x)
    (h : ∀ a r' s', P a r' s' → Q a r' s') : Follows r s Q x := by
  cases hx with
  | fault he => exact .fault he
  | result hadvances ha => exact .result hadvances (h _ _ _ ha)

theorem of_advances (hx : Follows r' t P x) (h : Advances r s r' t) : Follows r s P x := by
  cases hx with
  | fault he => exact .fault (h.complete.trans he)
  | result hadvances ha => exact .result (h.trans hadvances) ha

theorem bind (hx : Follows r s P x) {f : α × State → Reading (β × State)}
    (hf : ∀ a r' s', Advances r s r' s' → P a r' s' → Follows r' s' Q (f (a, stateAt r' s'))) :
    Follows r s Q (x >>= f) := by
  cases hx with
  | fault he =>
    rw [sure_bind]
    exact .fault he
  | result hadvances ha =>
    rw [pure_bind]
    exact (hf _ _ _ hadvances ha).of_advances hadvances

end Follows

/-- An alternation has been read to its end, which is that of the pattern or a closing
parenthesis. -/
def Ended (n : Node) (r : Reader) (s : Source) : Prop :=
  r.branches.finish = .ok n ∧ ∀ c ∈ s.rest.head?, c = ')'

/-- Alternations are read as they should be in so many groups. -/
def Descends (inner : State → Reading (Node × State)) (depth : Nat) : Prop :=
  ∀ r s, r.branches = {} → r.groups.length = depth → Follows r s Ended (inner (stateAt r s))

/-! ## Groups -/

/-- What comes of reading the rest of a group: the reader has left it. -/
inductive Closes (r : Reader) (s : Source) (g : OpenGroup) (groups : List OpenGroup) :
    Reading (Node × State) → Prop
  | fault {e : PatternError} (h : r.complete s = .error e) : Closes r s g groups (sure (.error e))
  | closed {body : Node} {flags : Flags} {more : Array (Option String)} {s' : Source}
    (hcomplete : r.complete s =
      Reader.complete ⟨g.flags, r.names ++ more, groups, g.around.push (g.piece body)⟩ s')
    (hreaches : s.Reaches s') :
    Closes r s g groups (pure (body, ⟨s', flags, r.names ++ more, groups.length⟩))

variable {inner : State → Reading (Node × State)} {g : OpenGroup} {groups : List OpenGroup}

/-- **The rest of a group** is read as it is by the reader. -/
theorem enclosed_closes (hinner : Descends inner (groups.length + 1)) (flags : Flags)
    (names : Array (Option String)) (s : Source) :
    Closes ⟨flags, names, g :: groups, {}⟩ s g groups
      (enclosed inner g.offset ⟨s, flags, names, groups.length⟩) := by
  have hbody := hinner ⟨flags, names, g :: groups, {}⟩ s rfl rfl
  unfold enclosed
  change Closes _ _ _ _ (inner (stateAt ⟨flags, names, g :: groups, {}⟩ s) >>= _)
  generalize inner (stateAt ⟨flags, names, g :: groups, {}⟩ s) = x at hbody
  cases hbody with
  | fault he =>
    rw [sure_bind]
    exact .fault he
  | @result body r' s' h hbody =>
    obtain ⟨hcomplete, hgroups, ⟨more, hnames⟩, hreaches⟩ := h
    obtain ⟨hfinish, hend⟩ := hbody
    obtain ⟨flags', names', groups', branches'⟩ := r'
    obtain rfl : groups' = g :: groups := hgroups
    obtain rfl : names' = names ++ more := hnames
    rw [pure_bind]
    dsimp only [stateAt]
    rw [if_neg (by simp)]
    rcases accept_eq_or s' ')' with ⟨t, ht, heq⟩ | ⟨hnone, heq⟩
    · rw [heq]
      have hnext := Lexeme.next?_single (show Token.single? ')' = some .closing from rfl) ht
      have hstep := Reader.closing_of_finish hfinish s'.offset rfl
      exact .closed (hcomplete.trans (Reader.complete_of_step hnext hstep))
        (hreaches.trans (reads_of_skip? ht).reaches)
    · rw [heq]
      refine .fault (hcomplete.trans ?_)
      obtain ⟨o, cs⟩ := s'
      cases cs with
      | nil =>
        rw [Reader.complete_nil]
        unfold Reader.finish
        rw [hfinish]
      | cons c cs => exact absurd (hend c rfl) (ne_of_skip?_eq_none hnone c rfl)

/-- What a piece that has been read, or flags that have been changed, do to the alternation. -/
structure Taken (r : Reader) (s : Source) (piece : Option Node) (r' : Reader) (s' : Source) :
    Prop where
  branches : r'.branches = match piece with
    | some n => r.branches.push n
    | none => r.branches.touch
  length : s'.rest.length < s.rest.length

/-- A group is read once its head has been. -/
theorem opened_follows (capture : Option (Nat × Option String)) (more : Array (Option String))
    (hinner : Descends inner (r.groups.length + 1)) {lx : Lexeme} {flags : Flags}
    {f : Node × State → Reading (Option Node × State)}
    (hnext : Lexeme.next? s = some (lx, t))
    (hstep : r.step lx =
      .ok ⟨flags, r.names ++ more, ⟨o, capture, r.flags, r.branches⟩ :: r.groups, {}⟩)
    (hf : ∀ body flags rest s',
      f (body, ⟨s', flags, r.names ++ more ++ rest, r.groups.length⟩) =
        pure (some (OpenGroup.piece ⟨o, capture, r.flags, r.branches⟩ body),
          ⟨s', r.flags, r.names ++ more ++ rest, r.groups.length⟩)) :
    Follows r s (Taken r s)
      (enclosed inner o ⟨t, flags, r.names ++ more, r.groups.length⟩ >>= f) := by
  have hcomplete := Reader.complete_of_step hnext hstep
  have hclosed := enclosed_closes (g := ⟨o, capture, r.flags, r.branches⟩) hinner flags
    (r.names ++ more) t
  dsimp only at hclosed
  generalize enclosed inner o ⟨t, flags, r.names ++ more, r.groups.length⟩ = x at hclosed
  cases hclosed with
  | fault he =>
    rw [sure_bind]
    exact .fault (hcomplete.trans he)
  | @closed body flags rest s' hclosed hreaches =>
    rw [pure_bind, hf]
    have hreached := (Lexeme.placed_of_next? hnext).2.trans hreaches
    have hadvances : Advances r s ⟨r.flags, r.names ++ more ++ rest, r.groups,
        r.branches.push (OpenGroup.piece ⟨o, capture, r.flags, r.branches⟩ body)⟩ s' :=
      ⟨hcomplete.trans hclosed, rfl, ⟨more ++ rest, Array.append_assoc⟩, hreached⟩
    refine .result hadvances ⟨rfl, ?_⟩
    exact Nat.lt_of_le_of_lt hreaches.length_le (Lexeme.next?_length hnext)

/-- A group that captures is read once its head has been, if there are not too many. -/
theorem captured_follows (hinner : Descends inner (r.groups.length + 1)) {lx : Lexeme}
    {name : Option String} (hnext : Lexeme.next? s = some (lx, t))
    (hstep : r.step lx = r.openCapture o name) :
    Follows r s (Taken r s)
      (if mostGroups < r.names.size then blame .tooManyGroups o
      else do
        let (body, st) ← enclosed inner o ⟨t, r.flags, r.names.push name, r.groups.length⟩
        match st.names[r.names.size]? with
        | none => broken
        | some name =>
          return (some (.group body r.names.size name), { st with flags := r.flags })) := by
  by_cases hsize : mostGroups < r.names.size
  · rw [if_pos hsize]
    exact .fault (Reader.complete_of_step_error hnext (hstep.trans (if_pos hsize)))
  · rw [if_neg hsize, Array.push_eq_append]
    refine opened_follows (some (r.names.size, name)) #[name] hinner hnext ?_ ?_
    · rw [hstep, Reader.openCapture, if_neg hsize, Array.push_eq_append]
    · intro body flags rest s'
      have hname : (r.names ++ #[name] ++ rest)[r.names.size]? = some name := by
        rw [← Array.push_eq_append, Array.getElem?_append_left (by simp), Array.getElem?_push_size]
      dsimp only
      rw [hname]
      rfl

/-- **Groups** are read as they are by the reader. -/
theorem group_follows (hinner : r.groups.length < deepestNesting →
      Descends inner (r.groups.length + 1)) (o : Nat) (cs : List Char) :
    Follows r ⟨o, '(' :: cs⟩ (Taken r ⟨o, '(' :: cs⟩)
      (group inner (stateAt r ⟨o, '(' :: cs⟩)) := by
  unfold stateAt group
  dsimp only
  rw [take_cons, pure_bind]
  by_cases hdepth : deepestNesting ≤ r.groups.length
  · rw [if_pos hdepth]
    have hstep : ∀ head, r.step ⟨o, .ok (.opening head)⟩ = .error ⟨.nestingTooDeep, o⟩ :=
      fun head => if_pos hdepth
    cases h : GroupHead.scan ⟨o + '('.utf8Size, cs⟩ with
    | error e =>
      exact .fault (Reader.complete_of_step_error (Lexeme.next?_opening_error h) (hstep _))
    | ok result => exact .fault (Reader.complete_of_step_error (Lexeme.next?_opening h) (hstep _))
  rw [if_neg hdepth]
  have hlt := Nat.not_le.mp hdepth
  have hhead := groupHead_headed r.names r.flags ⟨o + '('.utf8Size, cs⟩
  generalize groupHead r.names r.flags ⟨o + '('.utf8Size, cs⟩ = x at hhead
  cases hhead with
  | fault h =>
    rw [sure_bind]
    have hnext := Lexeme.next?_opening_error h
    exact .fault (Reader.complete_of_step_error hnext (if_neg hdepth))
  | duplicate h hname =>
    refine .fault (Reader.complete_of_step_error (Lexeme.next?_opening h) ?_)
    exact (Reader.step_opening hlt o _).trans (if_pos hname)
  | capture h =>
    rw [pure_bind]
    exact captured_follows (hinner hlt) (Lexeme.next?_opening h) (Reader.step_opening hlt o _)
  | named h hname =>
    rw [pure_bind]
    refine captured_follows (hinner hlt) (Lexeme.next?_opening h) ?_
    exact (Reader.step_opening hlt o _).trans (if_neg (ne_true_of_eq_false hname))
  | plain h =>
    rw [pure_bind]
    have hnext := Lexeme.next?_opening h
    refine opened_follows none #[] (hinner hlt) hnext (Reader.step_opening hlt o _) ?_
    intro body flags rest s'
    rfl
  | underFlags h =>
    rw [pure_bind]
    have hnext := Lexeme.next?_opening h
    refine opened_follows none #[] (hinner hlt) hnext (Reader.step_opening hlt o _) ?_
    intro body flags rest s'
    rfl
  | @flags changes t h =>
    rw [pure_bind]
    have hnext := Lexeme.next?_opening h
    have hstep : r.step ⟨o, .ok (.opening (.ok (.flags changes)))⟩ =
        .ok { r with flags := r.flags.change changes, branches := r.branches.touch } :=
      Reader.step_opening hlt o _
    exact .result ⟨Reader.complete_of_step hnext hstep, rfl, ⟨#[], by simp⟩,
      (Lexeme.placed_of_next? hnext).2⟩ ⟨rfl, Lexeme.next?_length hnext⟩

end Checked

end LinearRegex.Pattern
