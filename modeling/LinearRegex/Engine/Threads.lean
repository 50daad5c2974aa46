import LinearRegex.Engine.SparseSet

/-!
# Threads

The threads that wait at one place of a text: at most one for each instruction, in the order of
their priority, each with the slots it has recorded. The slots of all threads lie in one table, a
row for each instruction.
-/

namespace LinearRegex

/-- A slot: the byte offset recorded last, if any. -/
abbrev Slot := Option Nat

/-- The slots of one thread. -/
abbrev Slots := Array Slot

namespace Slots

/-- Copies the first `n` slots from a place in one array to a place in another. -/
def copy (source : Slots) (first : Nat) (target : Slots) (place : Nat) : Nat → Slots
  | 0 => target
  | n + 1 =>
    copy source first (target.setIfInBounds (place + n) (source.getD (first + n) none)) place n

/-- An array cut or filled up with empty slots to a given size. -/
def resize (slots : Slots) (size : Nat) : Slots :=
  slots.take size ++ Array.replicate (size - slots.size) none

end Slots

/-- The threads at one place. -/
structure Threads where
  /-- The instructions that have been reached, the most preferred first. -/
  set : SparseSet := .empty 0
  /-- The slots of the waiting threads, a row for each instruction. -/
  table : Slots := #[]
  /-- The number of slots in a row. -/
  width : Nat := 0
deriving Inhabited

namespace Threads

/-- Makes room for a program and a number of slots. Rows may keep what they held. -/
def prepare (t : Threads) (instrCount width : Nat) : Threads where
  set := if t.set.capacity = instrCount then t.set else t.set.resize instrCount
  table := t.table.resize (instrCount * width)
  width := width

/-- The list without its threads. -/
def clear : Threads → Threads
  | ⟨set, table, width⟩ => ⟨set.clear, table, width⟩

/-- Records the slots of the thread at an instruction. -/
def store : Threads → Nat → Slots → Threads
  | ⟨set, table, width⟩, ip, slots => ⟨set, slots.copy 0 table (ip * width) width, width⟩

/-- Copies the slots of the thread at an instruction. -/
def load (t : Threads) (ip : Nat) (slots : Slots) : Slots :=
  t.table.copy (ip * t.width) slots 0 t.width

end Threads

end LinearRegex
