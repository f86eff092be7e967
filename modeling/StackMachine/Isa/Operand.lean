import StackMachine.Isa.Register
import StackMachine.Isa.Opcode
/-!
# Operands and addressing modes

An operand is absent, an immediate word, a register, a memory cell at an immediate address,
or a memory cell at the address a register holds. Its addressing mode is stored in the top
two bits of an instruction's first byte; an immediate and no operand share the bits `00`,
told apart by the opcode's class, which also decides which modes are allowed at all.
-/

namespace StackMachine

/-- How an operand is addressed. -/
inductive Mode
  | none
  | imm
  | reg
  | memImm
  | memReg
  deriving DecidableEq, Repr

/-- The mode's name in reports. -/
def Mode.name : Mode → String
  | .none => "None"
  | .imm => "Imm"
  | .reg => "Reg"
  | .memImm => "MemImm"
  | .memReg => "MemReg"

/-- The mode's bits, the top two of an instruction's first byte. -/
def Mode.bits : Mode → Nat
  | .none => 0
  | .imm => 0
  | .reg => 1
  | .memImm => 2
  | .memReg => 3

/-- Whether an opcode of the class may take an operand in the mode. -/
def OperandClass.admits : OperandClass → Mode → Bool
  | .nullary, m => m == .none
  | .source, m => m != .none
  | .sink, m => m != .imm
  | .target, m => m == .imm

/-- The mode that mode bits stand for with an opcode of the class, when the class allows
it. -/
def OperandClass.modeOfBits? (c : OperandClass) (bits : Nat) : Option Mode :=
  let m := match bits with
    | 0 => if c = .source ∨ c = .target then Mode.imm else Mode.none
    | 1 => .reg
    | 2 => .memImm
    | _ => .memReg
  if c.admits m then some m else none

/-- An instruction's operand. -/
inductive Operand
  | none
  | imm (value : Int32)
  | reg (r : Register)
  | memImm (addr : Int32)
  | memReg (r : Register)
  deriving DecidableEq, Repr

/-- How the operand is addressed. -/
def Operand.mode : Operand → Mode
  | .none => .none
  | .imm _ => .imm
  | .reg _ => .reg
  | .memImm _ => .memImm
  | .memReg _ => .memReg

/-- The operand as written after a mnemonic: empty, or a blank and then `5`, `rax`, `[5]` or
`[rax]`. -/
def Operand.suffix : Operand → String
  | .none => ""
  | .imm v => " " ++ toString v
  | .reg r => " " ++ r.name
  | .memImm a => " [" ++ toString a ++ "]"
  | .memReg r => " [" ++ r.name ++ "]"

theorem modeOfBits?_bits (c : OperandClass) (m : Mode) (h : c.admits m = true) :
    c.modeOfBits? m.bits = some m := by
  cases c <;> cases m <;> simp_all [OperandClass.modeOfBits?, OperandClass.admits, Mode.bits]

theorem admits_of_modeOfBits? {c : OperandClass} {bits : Nat} {m : Mode}
    (h : c.modeOfBits? bits = some m) : c.admits m = true := by
  simp only [OperandClass.modeOfBits?, Option.ite_none_right_eq_some, Option.some.injEq] at h
  obtain ⟨h1, rfl⟩ := h
  exact h1

end StackMachine
