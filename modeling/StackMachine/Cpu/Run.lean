import StackMachine.Cpu.Step
/-!
# Running

A run takes steps until `hlt` runs, a step fails, or a budget of steps is spent. A failing
step counts as a step. Each step is traced as the `ip` it started at, the `ip` it left, and
the stack depth it left.
-/

namespace StackMachine

/-- How a run ended. -/
inductive Status
  | halted
  | faulted (f : Fault)
  /-- The budget was spent with the machine still running. -/
  | limit
  deriving DecidableEq, Repr

/-- One step as traced. -/
structure TraceEntry where
  before : Nat
  after : Nat
  depth : Nat
  deriving DecidableEq, Repr

/-- What a run did. -/
structure Report where
  machine : Machine
  status : Status
  steps : Nat
  trace : Array TraceEntry

/-- Runs at most `budget` steps of `code` from `m`, the report so far being `steps` steps
with their `trace`. -/
def runFrom (code : Array UInt8) : Nat → Machine → Nat → Array TraceEntry → Report
  | 0, m, steps, trace => ⟨m, .limit, steps, trace⟩
  | budget + 1, m, steps, trace =>
    let before := m.ip
    match step code m with
    | .ok .next m' =>
      runFrom code budget m' (steps + 1) (trace.push ⟨before, m'.ip, m'.stack.size⟩)
    | .ok .halt m' => ⟨m', .halted, steps + 1, trace.push ⟨before, m'.ip, m'.stack.size⟩⟩
    | .error e m' =>
      ⟨m', .faulted ⟨e, before, m'.stack.size⟩, steps + 1,
        trace.push ⟨before, m'.ip, m'.stack.size⟩⟩

/-- Runs at most `budget` steps of `code` from `m`. -/
def run (code : Array UInt8) (budget : Nat) (m : Machine) : Report :=
  runFrom code budget m 0 #[]

end StackMachine
