import LinearRegex.Engine.Threads
import LinearRegex.Program.Basic

/-!
# Following threads

A thread goes on from instruction to instruction until it waits for a character, is complete, or
fails. Where it splits, the secondary way is put on a stack and followed later; where it records a
slot, the old content is put on the stack and restored when all ways from there have been followed.
An instruction that has been reached before is not followed again: the thread that came first has
priority.

The loop ends because every instruction is entered at most once: an entry adds a member to the set
and at most one frame to the stack, and all else takes a frame off.
-/

namespace LinearRegex

/-- What is still to be done while a thread is followed. -/
inductive Frame where
  /-- Follow the thread from an instruction on. -/
  | explore (ip : Nat)
  /-- Put a slot back to what it held. -/
  | restore (slot : Nat) (old : Slot)
deriving DecidableEq, Inhabited

namespace Program

/-- Follows the threads on a stack at a place in the text, for the slots they have recorded. Gives
the list with the threads that wait, and the slots as they are at the end. -/
def close (p : Program) (cur : Cursor) :
    Threads → Slots → List Frame → Threads × Slots
  | threads, slots, [] => (threads, slots)
  | threads, slots, .restore slot old :: stack =>
    close p cur threads (slots.setIfInBounds slot old) stack
  | ⟨set, table, width⟩, slots, .explore ip :: stack =>
    match _h : set.insert ip with
    | (false, set) => close p cur ⟨set, table, width⟩ slots stack
    | (true, set) =>
      match p.instrs[ip]? with
      | some (.jump target) => close p cur ⟨set, table, width⟩ slots (.explore target :: stack)
      | some (.split primary secondary) =>
        close p cur ⟨set, table, width⟩ slots (.explore primary :: .explore secondary :: stack)
      | some (.save slot) =>
        match slots[slot]? with
        | some old =>
          close p cur ⟨set, table, width⟩ (slots.setIfInBounds slot (some cur.offset))
            (.explore (ip + 1) :: .restore slot old :: stack)
        | none => close p cur ⟨set, table, width⟩ slots (.explore (ip + 1) :: stack)
      | some (.assertion a) =>
        if a.holds cur then close p cur ⟨set, table, width⟩ slots (.explore (ip + 1) :: stack)
        else close p cur ⟨set, table, width⟩ slots stack
      | some _ => close p cur (Threads.store ⟨set, table, width⟩ ip slots) slots stack
      | none => close p cur ⟨set, table, width⟩ slots stack
termination_by threads _ stack => 2 * (threads.set.capacity - threads.set.size) + stack.length
decreasing_by
  all_goals simp only [List.length_cons, Threads.store]
  all_goals first
    | omega
    | have := SparseSet.size_lt_of_insert _h
      omega
    | have := SparseSet.insert_false _h
      subst this
      omega

end Program

end LinearRegex
