import StackMachine.Text.Ascii
/-!
# Opcodes

Eighteen operations, each with an id (the low six bits of an encoded instruction's first
byte), a mnemonic, and an operand class that says which operands it takes. The four
arithmetic operations and the six conditional jumps are grouped, so the machine's behaviour
is written once for each group.
-/

namespace StackMachine

/-- The arithmetic operations: each takes the top two words and leaves one. -/
inductive Arith
  | add
  | sub
  | mul
  | div
  deriving DecidableEq, Repr

/-- The tests of a conditional jump, between the word below the top (`a`) and the top word
(`b`), compared as signed integers. -/
inductive Comparison
  /-- Greater: `a > b`. -/
  | above
  /-- Greater or equal: `a ≥ b`. -/
  | aboveOrEqual
  /-- Less: `a < b`. -/
  | below
  /-- Less or equal: `a ≤ b`. -/
  | belowOrEqual
  /-- Equal: `a = b`. -/
  | equal
  /-- Different: `a ≠ b`. -/
  | notEqual
  deriving DecidableEq, Repr

/-- Whether the comparison holds of `a` (below the top) and `b` (the top). -/
def Comparison.holds : Comparison → Int32 → Int32 → Bool
  | .above, a, b => decide (a > b)
  | .aboveOrEqual, a, b => decide (a ≥ b)
  | .below, a, b => decide (a < b)
  | .belowOrEqual, a, b => decide (a ≤ b)
  | .equal, a, b => a == b
  | .notEqual, a, b => a != b

/-- The operations of the machine. -/
inductive Opcode
  | halt
  | push
  | pop
  | arith (op : Arith)
  | print
  | read
  | jump
  | branch (cmp : Comparison)
  | call
  | ret
  deriving DecidableEq, Repr

/-- Which operands an opcode takes. -/
inductive OperandClass
  /-- No operand. -/
  | nullary
  /-- A value to read: an immediate, a register, or a memory cell. -/
  | source
  /-- Optionally a place to write: a register or a memory cell. -/
  | sink
  /-- A code offset, written as an immediate. -/
  | target
  deriving DecidableEq, Repr

/-- The class's name in reports. -/
def OperandClass.name : OperandClass → String
  | .nullary => "Nullary"
  | .source => "Source"
  | .sink => "Sink"
  | .target => "Target"

namespace Opcode

/-- Every opcode, in id order. -/
def all : List Opcode :=
  [halt, push, pop, arith .add, arith .sub, arith .mul, arith .div, print, read, jump,
    branch .above, branch .aboveOrEqual, branch .below, branch .belowOrEqual, branch .equal,
    branch .notEqual, call, ret]

/-- The opcode's id. -/
def id : Opcode → Nat
  | halt => 0
  | push => 1
  | pop => 2
  | arith .add => 3
  | arith .sub => 4
  | arith .mul => 5
  | arith .div => 6
  | print => 7
  | read => 8
  | jump => 9
  | branch .above => 10
  | branch .aboveOrEqual => 11
  | branch .below => 12
  | branch .belowOrEqual => 13
  | branch .equal => 14
  | branch .notEqual => 15
  | call => 16
  | ret => 17

/-- The opcode's mnemonic. -/
def mnemonic : Opcode → String
  | halt => "hlt"
  | push => "push"
  | pop => "pop"
  | arith .add => "add"
  | arith .sub => "sub"
  | arith .mul => "mul"
  | arith .div => "div"
  | print => "out"
  | read => "in"
  | jump => "jmp"
  | branch .above => "ja"
  | branch .aboveOrEqual => "jae"
  | branch .below => "jb"
  | branch .belowOrEqual => "jbe"
  | branch .equal => "je"
  | branch .notEqual => "jne"
  | call => "call"
  | ret => "ret"

/-- Which operands the opcode takes. -/
def operandClass : Opcode → OperandClass
  | push => .source
  | pop => .sink
  | jump | branch _ | call => .target
  | halt | arith _ | print | read | ret => .nullary

/-- The opcode with a given id. -/
def ofId? (n : Nat) : Option Opcode :=
  all[n]?

/-- The opcode a mnemonic names, ASCII case ignored. -/
def ofMnemonic? (s : String) : Option Opcode :=
  all.find? fun op => Text.sameIgnoringCase op.mnemonic s

theorem ofId?_id (op : Opcode) : ofId? op.id = some op := by
  rcases op with _ | _ | _ | ⟨_ | _ | _ | _⟩ | _ | _ | _ | ⟨_ | _ | _ | _ | _ | _⟩ | _ | _ <;> rfl

theorem id_lt (op : Opcode) : op.id < 18 := by
  rcases op with _ | _ | _ | ⟨_ | _ | _ | _⟩ | _ | _ | _ | ⟨_ | _ | _ | _ | _ | _⟩ | _ | _ <;>
    decide

end Opcode

end StackMachine
