import LinearRegex.Pattern.Parser
import LinearRegex.Prefilter.Beginning
import LinearRegex.Program.Basic

/-!
# Compiling patterns

A tree becomes code piece by piece. Branches and loops are split off at instructions whose targets
are not known when they are written; these are patched as soon as the targets are. A counted loop is
written out as often as it may run. A limit on the number of instructions is watched with every
instruction, so that no more is ever built than is allowed.
-/

namespace LinearRegex

/-- Why a pattern cannot be compiled. -/
inductive CompileError where
  /-- There would be more instructions than the limit. -/
  | programTooLarge (limit : Nat)
  /-- A search that records all groups would need more slot entries than the limit. -/
  | slotTableTooLarge (entries limit : Nat)
deriving DecidableEq, Inhabited

/-- The error in words. -/
def CompileError.message : CompileError → String
  | .programTooLarge limit =>
    "Compiled program too large (limit is " ++ toString limit ++ " instructions)"
  | .slotTableTooLarge entries limit =>
    "Too many capture groups for program size (" ++ toString entries ++
      " slot entries, limit is " ++ toString limit ++ ")"

/-! ## Code -/

/-- Code that is being written. -/
structure Code where
  instrs : Array Instr := #[]
  brackets : Array Bracket := #[]
deriving DecidableEq, Inhabited

namespace Code

/-- The number of instructions, which is also where the next one goes. -/
def size (code : Code) : Nat := code.instrs.size

/-- Writes an instruction, unless the limit is reached. -/
def push (limit : Nat) (code : Code) (i : Instr) : Except CompileError Code :=
  if limit ≤ code.size then .error (.programTooLarge limit)
  else .ok { code with instrs := code.instrs.push i }

/-- Writes an instruction for a bracket, which gets a number of its own. -/
def pushBracket (limit : Nat) (code : Code) (b : Bracket) : Except CompileError Code :=
  let index := code.brackets.size
  push limit { code with brackets := code.brackets.push b } (.bracket index)

/-- Replaces an instruction. -/
def patch (code : Code) (place : Nat) (i : Instr) : Code :=
  { code with instrs := code.instrs.setIfInBounds place i }

/-- Replaces several instructions. -/
def patchAll (code : Code) (places : List Nat) (i : Nat → Instr) : Code :=
  places.foldl (fun code place => code.patch place (i place)) code

end Code

/-- Runs a step a number of times, unless it fails. -/
def times {α ε : Type} (step : α → Except ε α) : Nat → α → Except ε α
  | 0, a => .ok a
  | n + 1, a => do times step n (← step a)

/-- The split at the head of a loop's body: a greedy loop prefers the body, another one the exit. -/
def loopSplit (greedy : Bool) (exit head : Nat) : Instr :=
  if greedy then .split (head + 1) exit else .split exit (head + 1)

namespace Node

mutual

/-- Writes the code of a piece. -/
def emit (limit : Nat) : Node → Code → Except CompileError Code
  | .empty, code => .ok code
  | .char c ignoreCase, code => code.push limit (if ignoreCase then .foldedChar c else .char c)
  | .any, code => code.push limit .any
  | .anyButNewline, code => code.push limit .anyButNewline
  | .bracket b, code => code.pushBracket limit b
  | .assertion a, code => code.push limit (.assertion a)
  | .cat nodes, code => emitAll limit nodes code
  | .alt branches, code => emitBranches limit branches [] code
  | .loop body ⟨min, none, greedy⟩, code => do
    let code ← times (emit limit body) min code
    let head := code.size
    let code ← code.push limit (.jump 0)
    let code ← emit limit body code
    let code ← code.push limit (.jump head)
    let exit := code.size
    return code.patch head (loopSplit greedy exit head)
  | .loop body ⟨min, some max, greedy⟩, code => do
    let code ← times (emit limit body) min code
    let (heads, code) ← times
      (fun (heads, code) => do
        let head := code.size
        let code ← code.push limit (.jump 0)
        let code ← emit limit body code
        return (head :: heads, code))
      (max - min) (([] : List Nat), code)
    let exit := code.size
    return code.patchAll heads (loopSplit greedy exit)
  | .group body index _, code => do
    let code ← code.push limit (.save (2 * index))
    let code ← emit limit body code
    code.push limit (.save (2 * index + 1))

/-- Writes the code of pieces in a row. -/
def emitAll (limit : Nat) : List Node → Code → Except CompileError Code
  | [], code => .ok code
  | n :: ns, code => do
    let code ← emit limit n code
    emitAll limit ns code

/-- Writes the code of branches. Each but the last has a split in front, which leads to the next
one, and a jump to the exit behind; `jumps` are the jumps written so far. -/
def emitBranches (limit : Nat) : List Node → List Nat → Code → Except CompileError Code
  | [], jumps, code =>
    let exit := code.size
    .ok (code.patchAll jumps fun _ => .jump exit)
  | n :: ns, jumps, code =>
    match ns with
    | [] => do
      let code ← emit limit n code
      let exit := code.size
      return code.patchAll jumps fun _ => .jump exit
    | _ :: _ => do
      let head := code.size
      let code ← code.push limit (.split 0 0)
      let code ← emit limit n code
      let jump := code.size
      let code ← code.push limit (.jump 0)
      let next := code.size
      emitBranches limit ns (jump :: jumps) (code.patch head (.split (head + 1) next))

end

end Node

/-! ## Programs -/

namespace Program

/-- The limit on the number of instructions where none is given. -/
def defaultLimit : Nat := 0x100000

/-- The largest number of instructions or slot entries that is told apart. -/
def countCeiling : Nat := 0xFFFFFFFFFFFFFFFF

/-- How many slot entries are allowed for each instruction that is. -/
def slotFactor : Nat := 4

/-- Refuses a program for which the slots of all its threads would take too much room. -/
def checkSlots (limit : Nat) (p : Program) : Except CompileError Program :=
  let allowed := min (limit * slotFactor) countCeiling
  let entries := min (p.instrs.size * p.slotCount) countCeiling
  if allowed < entries then .error (.slotTableTooLarge entries allowed) else .ok p

/-- Compiles a pattern to at most `limit` instructions. The whole match is recorded in the first two
slots. -/
def compile (limit : Nat) (pattern : Pattern) : Except CompileError Program := do
  let code ← ({} : Code).push limit (.save 0)
  let code ← pattern.node.emit limit code
  let code ← code.push limit (.save 1)
  let code ← code.push limit .accept
  checkSlots limit
    { instrs := code.instrs
      brackets := code.brackets
      prefilter := pattern.node.prefilter
      groupNames := pattern.groupNames
      flags := pattern.flags }

end Program

end LinearRegex
