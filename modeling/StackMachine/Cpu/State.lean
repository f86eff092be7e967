import StackMachine.Isa.Decode
import StackMachine.Stack
/-!
# Machine state

The machine runs code from offset `ip`. Besides the operand stack it has four registers,
a memory of words addressed from 0, and a stack of return addresses. It reads numbers from
an input byte string, one line each, and prints numbers.

A step can fail; `RunError` says why, and a `Fault` adds where the failing step started and
how deep the stack was after it.
-/

namespace StackMachine

/-- The values of the four registers. -/
structure Registers where
  rax : Int32
  rbx : Int32
  rcx : Int32
  rdx : Int32
  deriving DecidableEq, Repr

namespace Registers

/-- Every register holding 0. -/
def zero : Registers := ⟨0, 0, 0, 0⟩

/-- The value of a register. -/
def get (rs : Registers) : Register → Int32
  | .rax => rs.rax
  | .rbx => rs.rbx
  | .rcx => rs.rcx
  | .rdx => rs.rdx

/-- The registers with `r` set to `v`. -/
def set (rs : Registers) (r : Register) (v : Int32) : Registers :=
  match r with
  | .rax => { rs with rax := v }
  | .rbx => { rs with rbx := v }
  | .rcx => { rs with rcx := v }
  | .rdx => { rs with rdx := v }

/-- The values in id order. -/
def toList (rs : Registers) : List Int32 := [rs.rax, rs.rbx, rs.rcx, rs.rdx]

@[simp] theorem get_set_self (rs : Registers) (r : Register) (v : Int32) :
    (rs.set r v).get r = v := by
  cases r <;> rfl

theorem get_set_of_ne (rs : Registers) {r s : Register} (v : Int32) (h : r ≠ s) :
    (rs.set r v).get s = rs.get s := by
  cases r <;> cases s <;> first | rfl | exact absurd rfl h

end Registers

/-- Why a number could not be read from input. -/
inductive InputError
  /-- No bytes are left. -/
  | endOfInput
  /-- The line is not UTF-8. -/
  | notUtf8
  /-- The line, trimmed, is not a 32-bit decimal integer. -/
  | notInteger (text : String)
  deriving DecidableEq, Repr

/-- The text the error is reported with. -/
def InputError.message : InputError → String
  | .endOfInput => "end of input"
  | .notUtf8 => "stream did not contain valid UTF-8"
  | .notInteger t => "`" ++ t ++ "` is not an integer"

/-- Why a step failed. -/
inductive RunError
  /-- The bytes at `ip` are no instruction. -/
  | decode (e : DecodeError)
  /-- The stack held too few values. -/
  | stack (e : StackError)
  /-- A `ret` with no return address. -/
  | returnUnderflow
  /-- A jump or call to an offset outside the code. -/
  | jumpOutOfBounds (target : Int32)
  /-- The `ip` is at or past the end of the code. -/
  | unexpectedEnd
  /-- A `div` by zero. -/
  | divisionByZero
  /-- A memory address outside the memory. -/
  | memoryOutOfBounds (addr : Int32)
  /-- An `in` that could not read a number. -/
  | input (e : InputError)
  deriving DecidableEq, Repr

/-- The error's name in reports. -/
def RunError.code : RunError → String
  | .decode _ => "cpu::decode"
  | .stack _ => "cpu::stack_underflow"
  | .returnUnderflow => "cpu::return_underflow"
  | .jumpOutOfBounds _ => "cpu::jump_bounds"
  | .unexpectedEnd => "cpu::unexpected_end"
  | .divisionByZero => "cpu::division_by_zero"
  | .memoryOutOfBounds _ => "cpu::memory_bounds"
  | .input _ => "cpu::input"

/-- The text the error is reported with. -/
def RunError.message : RunError → String
  | .decode e => "cannot decode instruction: " ++ e.message
  | .stack e => e.message
  | .returnUnderflow => "`ret` without a pending `call`"
  | .jumpOutOfBounds t => s!"control transfer to {t} is outside the payload"
  | .unexpectedEnd => "reached end of payload without `hlt`"
  | .divisionByZero => "division by zero"
  | .memoryOutOfBounds a => s!"memory address {a} out of range"
  | .input e => "cannot read input: " ++ e.message

/-- A failed step: why, the `ip` it started at, and the stack depth it left. -/
structure Fault where
  error : RunError
  ip : Nat
  depth : Nat
  deriving DecidableEq, Repr

/-- The text the fault is reported with. -/
def Fault.message (f : Fault) : String :=
  s!"Execution failed at ip {f.ip}: " ++ f.error.message ++ s!" (stack size: {f.depth})"

/-- The state of the machine. -/
structure Machine where
  /-- The offset of the next instruction. -/
  ip : Nat
  stack : Stack
  regs : Registers
  /-- The memory cells, addressed from 0. -/
  ram : Array Int32
  /-- Return addresses, the latest first. -/
  calls : List Nat
  /-- The input not read yet. -/
  input : List UInt8
  /-- The numbers printed so far, in order. -/
  printed : Array Int32
  deriving Repr

/-- What the machine has printed: each number in decimal on a line of its own. -/
def Machine.printedText (m : Machine) : String :=
  String.join (m.printed.toList.map fun v => toString v.toInt ++ "\n")

/-- The memory cells that do not hold 0, with their addresses, in address order. -/
def Machine.nonzeroCells (m : Machine) : List (Nat × Int32) :=
  m.ram.toList.zipIdx.filterMap fun (v, i) => if v = 0 then none else some (i, v)

/-- A machine about to run from offset 0, with `cells` memory cells holding 0 and the given
input. -/
def Machine.boot (cells : Nat) (input : List UInt8) : Machine :=
  ⟨0, Stack.empty, Registers.zero, Array.replicate cells 0, [], input, #[]⟩

end StackMachine
