import LinearRegex.Engine.Closure

/-!
# Searching

All threads go through the text together, one character at a time. At each place the threads that
wait there are asked in the order of their priority whether they take the next character. A thread
that is complete makes a match and cuts off the threads after it, but those before it go on and may
still make a match that is preferred. As long as there is no match, a new thread of the lowest
priority is started at each place; when no thread is left, the prefilter tells where to go on.

A search keeps its lists in a cache, which later searches may use again, also those of other
programs.

The search ends because it takes a character in every round but the last.
-/

namespace LinearRegex

/-- The lists of a search, kept for the next one. -/
structure Cache where
  /-- The threads at the current place. -/
  current : Threads := {}
  /-- The threads behind the next character. -/
  next : Threads := {}
  /-- The slots of the last match. -/
  slots : Slots := #[]
  /-- The slots of the thread that is being followed. -/
  scratch : Slots := #[]
deriving Inhabited

namespace Cache

/-- Makes room for a program and a number of slots, and empties the lists. -/
def prepare (cache : Cache) (instrCount width : Nat) : Cache where
  current := (cache.current.prepare instrCount width).clear
  next := (cache.next.prepare instrCount width).clear
  slots := .replicate width none
  scratch := cache.scratch.resize width

/-- A cache for a program. -/
def ofProgram (p : Program) : Cache := ({} : Cache).prepare p.instrs.size 0

end Cache

/-- A place in a text from which to search, and how. -/
structure Input where
  hay : Haystack
  start : Cursor
  /-- A match must begin at the place itself. -/
  anchored : Bool := false
  /-- How many places may be looked at before the deadline, if there is one. -/
  budget : Option Nat := none

/-- A search met its deadline at a byte offset. -/
structure Timeout where
  offset : Nat
deriving DecidableEq, Inhabited

/-- How a search ends: whether there is a match, or that the deadline was met. -/
abbrev Verdict := Except Timeout Bool

namespace Program

/-- Whether an instruction takes a character. -/
def takes (p : Program) (c : Char) : Instr → Bool
  | .char d => c == d
  | .foldedChar d => CaseFold.fold c == d
  | .bracket index => p.brackets[index]?.any (·.accepts c)
  | .any => true
  | .anyButNewline => c != '\n'
  | .accept => false
  | .assertion _ => false
  | .split _ _ => false
  | .jump _ => false
  | .save _ => false

/-- Lets the threads at some instructions take the next character, if there is one, and follows
those that do to `behind`. Stops at a thread that is complete, and gives its instruction. -/
def stepThreads (p : Program) (threads : Threads) (next? : Option Char) (behind : Cursor) :
    List Nat → Threads → Slots → Option Nat × Threads × Slots
  | [], next, scratch => (none, next, scratch)
  | ip :: ips, next, scratch =>
    match p.instrs[ip]? with
    | none => stepThreads p threads next? behind ips next scratch
    | some .accept => (some ip, next, scratch)
    | some i =>
      if next?.any (p.takes · i) then
        match p.close behind next (threads.load ip scratch) [.explore (ip + 1)] with
        | (next, scratch) => stepThreads p threads next? behind ips next scratch
      else stepThreads p threads next? behind ips next scratch

/-- The place where the search goes on when no thread is left: nowhere once there is a match, only
at its start if it is anchored, and else where the prefilter says. -/
def resume? (p : Program) (input : Input) (matched : Bool) (cur : Cursor) : Option Cursor :=
  if matched || (input.anchored && input.start.offset < cur.offset) then none
  else if input.anchored then some cur
  else (p.prefilter.next? input.hay.bytes cur.offset).map cur.advanceTo

/-- Starts a thread at a place, behind all others, if one may start there. -/
def startThread (p : Program) (input : Input) (matched : Bool) (cur : Cursor) (threads : Threads)
    (scratch : Slots) : Threads × Slots :=
  if matched || (input.anchored && cur.offset != input.start.offset) then (threads, scratch)
  else p.close cur threads (.replicate scratch.size none) [.explore 0]

theorem seek_rest_length (target offset : Nat) (before : Option Char) (cs : List Char) :
    (Cursor.seek target offset before cs).rest.length ≤ cs.length := by
  induction cs generalizing offset before with
  | nil => simp [Cursor.seek]
  | cons c cs ih =>
    unfold Cursor.seek
    split
    · simp
    · exact Nat.le_succ_of_le (ih _ _)

theorem resume?_rest_length {p : Program} {input : Input} {matched : Bool} {cur place : Cursor}
    (h : p.resume? input matched cur = some place) : place.rest.length ≤ cur.rest.length := by
  unfold resume? at h
  repeat' split at h
  · simp at h
  · obtain rfl := Option.some.inj h
    exact Nat.le_refl _
  · obtain ⟨o, -, rfl⟩ := Option.map_eq_some_iff.mp h
    exact seek_rest_length _ _ _ _

/-- Where a round takes place: here if some thread is left, and else where the search goes on. -/
def roundPlace? (p : Program) (input : Input) (matched : Bool) (cur : Cursor) (idle : Bool) :
    Option Cursor :=
  if idle then p.resume? input matched cur else some cur

theorem roundPlace?_rest_length {p : Program} {input : Input} {matched idle : Bool}
    {cur place : Cursor} (h : p.roundPlace? input matched cur idle = some place) :
    place.rest.length ≤ cur.rest.length := by
  unfold roundPlace? at h
  split at h
  · exact resume?_rest_length h
  · obtain rfl := Option.some.inj h
    exact Nat.le_refl _

/-- The rounds of a search from a place on. Where no slots are recorded, the first thread that is
complete ends it. -/
def rounds (p : Program) (input : Input) (width : Nat) (budget : Option Nat) (matched : Bool)
    (cur : Cursor) : Cache → Verdict × Cache
  | ⟨current, next, slots, scratch⟩ =>
    if budget = some 0 then (.error ⟨cur.offset⟩, ⟨current, next, slots, scratch⟩)
    else
      match _hp : p.roundPlace? input matched cur current.set.isEmpty with
      | none => (.ok matched, ⟨current, next, slots, scratch⟩)
      | some cur =>
        match p.startThread input matched cur current scratch with
        | (current, scratch) =>
          match p.stepThreads current cur.after cur.next current.set.toList next scratch with
          | (complete, next, scratch) =>
            match complete, width with
            | some _, 0 => (.ok true, ⟨current, next, slots, scratch⟩)
            | _, _ =>
              let matched := matched || complete.isSome
              let slots := match complete with
                | some ip => current.load ip slots
                | none => slots
              match _hr : cur.rest with
              | [] => (.ok matched, ⟨current, next, slots, scratch⟩)
              | _ :: _ =>
                rounds p input width (budget.map (· - 1)) matched cur.next
                  ⟨next, current.clear, slots, scratch⟩
termination_by cur.rest.length
decreasing_by
  have := roundPlace?_rest_length _hp
  simp only [Cursor.next, _hr, Cursor.push, List.length_cons] at *
  omega

/-- Searches from a place, recording the first `width` slots. The slots of a match are left in the
cache; with none to record, only whether there is a match is known. -/
def search (p : Program) (input : Input) (width : Nat) (cache : Cache) : Verdict × Cache :=
  p.rounds input width input.budget false input.start (cache.prepare p.instrs.size width)

end Program

end LinearRegex
