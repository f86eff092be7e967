import StackMachine.Cpu.Input
/-!
# One step

A step decodes the instruction at `ip`, moves `ip` past it, and then carries it out. It runs
in `EStateM`, so a step that fails keeps the changes it made before failing: `ip` has moved
past an instruction that decoded, a conditional jump to a bad target has already taken its
two values, and an `in` that finds no number has used up the line it read. Nothing else
changes on a failure, as each operation checks before it writes: `pop` stores before it
removes the value, and `div` by zero puts its operands back.
-/

namespace StackMachine

/-- What a step says about the run: go on, or stop because `hlt` ran. -/
inductive Flow
  | next
  | halt
  deriving DecidableEq, Repr

/-- Computations on the machine that may fail, keeping the state they reached. -/
abbrev Exec := EStateM RunError Machine

/-- The result of an arithmetic operation on `a` (below the top) and `b` (the top), with
wrapping; none for a division by zero. The quotient is truncated toward zero, and the
smallest word divided by -1 is itself. -/
def Arith.apply : Arith → Int32 → Int32 → Option Int32
  | .add, a, b => some (a + b)
  | .sub, a, b => some (a - b)
  | .mul, a, b => some (a * b)
  | .div, a, b => if b = 0 then none else some (a / b)

namespace Exec

/-- Runs a stack operation on the machine's stack. -/
def onStack {α : Type} (f : Stack → Except StackError (α × Stack)) : Exec α := do
  let m ← get
  match f m.stack with
  | .ok (a, s) =>
    set { m with stack := s }
    pure a
  | .error e => throw (.stack e)

/-- Puts a value on the stack. -/
def push (v : Int32) : Exec Unit :=
  modify fun m => { m with stack := m.stack.push v }

/-- The top value of the stack. -/
def peek : Exec Int32 := do
  match (← get).stack.peek with
  | .ok v => pure v
  | .error e => throw (.stack e)

/-- The index of the memory cell at `addr`, if the memory has one. -/
def cell (addr : Int32) : Exec Nat := do
  if 0 ≤ addr.toInt ∧ addr.toInt < (← get).ram.size then pure addr.toInt.toNat
  else throw (.memoryOutOfBounds addr)

/-- The value a source denotes. -/
def load : Source → Exec Int32
  | .imm v => pure v
  | .reg r => return (← get).regs.get r
  | .mem a => do
    let i ← cell a
    return (← get).ram.getD i 0
  | .memAt r => do
    let i ← cell ((← get).regs.get r)
    return (← get).ram.getD i 0

/-- Writes a value where a sink says. -/
def store (v : Int32) : Sink → Exec Unit
  | .discard => pure ()
  | .reg r => modify fun m => { m with regs := m.regs.set r v }
  | .mem a => do
    let i ← cell a
    modify fun m => { m with ram := m.ram.setIfInBounds i v }
  | .memAt r => do
    let i ← cell ((← get).regs.get r)
    modify fun m => { m with ram := m.ram.setIfInBounds i v }

/-- Moves `ip` to a target inside the code. -/
def jumpTo (code : Array UInt8) (t : Int32) : Exec Unit := do
  if 0 ≤ t.toInt ∧ t.toInt < code.size then modify fun m => { m with ip := t.toInt.toNat }
  else throw (.jumpOutOfBounds t)

/-- Reads a number from the input. The line is used up even when it holds no number, as the
reader takes the line before the number is parsed. -/
def readInput : Exec Int32 := do
  let input := (← get).input
  modify fun m => { m with input := (splitLine input).2 }
  match readNumber input with
  | .ok (v, _) => pure v
  | .error e => throw (.input e)

/-- Carries out an instruction whose `ip` has already moved past it. -/
def execute (code : Array UInt8) : Instruction → Exec Flow
  | .halt => pure .halt
  | .push src => do
    push (← load src)
    pure .next
  | .pop dst => do
    store (← peek) dst
    let _ ← onStack Stack.pop
    pure .next
  | .arith op => do
    let (a, b) ← onStack Stack.popPair
    match op.apply a b with
    | some r =>
      push r
      pure .next
    | none =>
      push a
      push b
      throw .divisionByZero
  | .print => do
    let v ← peek
    modify fun m => { m with printed := m.printed.push v }
    pure .next
  | .read => do
    push (← readInput)
    pure .next
  | .jump t => do
    jumpTo code t
    pure .next
  | .branch c t => do
    let (a, b) ← onStack Stack.popPair
    if c.holds a b then jumpTo code t
    pure .next
  | .call t => do
    let back := (← get).ip
    jumpTo code t
    modify fun m => { m with calls := back :: m.calls }
    pure .next
  | .ret => do
    match (← get).calls with
    | back :: rest =>
      modify fun m => { m with ip := back, calls := rest }
      pure .next
    | [] => throw .returnUnderflow

end Exec

/-- One step of the machine running `code`. -/
def step (code : Array UInt8) : Exec Flow := do
  let m ← get
  if m.ip < code.size then
    match decodeAt code m.ip with
    | .ok i =>
      set { m with ip := m.ip + i.size }
      Exec.execute code i
    | .error e => throw (.decode e)
  else throw .unexpectedEnd

end StackMachine
