import StackMachine.Isa.Operand
import StackMachine.LittleEndian
/-!
# Instructions

An instruction is an operation together with the operand its class calls for, so that an
instruction with an operand its opcode does not allow cannot be written down. `opcode` and
`operand` view an instruction as the pair the encoding stores; `make` goes back from a pair
whose mode the opcode's class admits.

An instruction is encoded as one byte, the opcode's id plus the mode bits times 64, followed
by a 4-byte little-endian operand unless there is none. Immediates and addresses are written
in two's complement, registers by id.
-/

namespace StackMachine

/-- Where `push` takes its value from. -/
inductive Source
  | imm (value : Int32)
  | reg (r : Register)
  | mem (addr : Int32)
  | memAt (r : Register)
  deriving DecidableEq, Repr

/-- Where `pop` puts the value it removes, if anywhere. -/
inductive Sink
  | discard
  | reg (r : Register)
  | mem (addr : Int32)
  | memAt (r : Register)
  deriving DecidableEq, Repr

/-- A machine instruction. -/
inductive Instruction
  | halt
  | push (src : Source)
  | pop (dst : Sink)
  | arith (op : Arith)
  | print
  | read
  | jump (target : Int32)
  | branch (cmp : Comparison) (target : Int32)
  | call (target : Int32)
  | ret
  deriving DecidableEq, Repr

/-- The operand a source is written as. -/
def Source.operand : Source → Operand
  | .imm v => .imm v
  | .reg r => .reg r
  | .mem a => .memImm a
  | .memAt r => .memReg r

/-- The operand a sink is written as. -/
def Sink.operand : Sink → Operand
  | .discard => .none
  | .reg r => .reg r
  | .mem a => .memImm a
  | .memAt r => .memReg r

/-- The source an operand in a mode of the source class denotes. -/
def Source.ofOperand : (o : Operand) → OperandClass.source.admits o.mode = true → Source
  | .imm v, _ => .imm v
  | .reg r, _ => .reg r
  | .memImm a, _ => .mem a
  | .memReg r, _ => .memAt r
  | .none, h => by simp [Operand.mode, OperandClass.admits] at h

/-- The sink an operand in a mode of the sink class denotes. -/
def Sink.ofOperand : (o : Operand) → OperandClass.sink.admits o.mode = true → Sink
  | .none, _ => .discard
  | .reg r, _ => .reg r
  | .memImm a, _ => .mem a
  | .memReg r, _ => .memAt r
  | .imm _, h => by simp [Operand.mode, OperandClass.admits] at h

/-- The code offset an operand in the target class's only mode holds. -/
def Operand.target : (o : Operand) → OperandClass.target.admits o.mode = true → Int32
  | .imm t, _ => t
  | .none, h | .reg _, h | .memImm _, h | .memReg _, h => by
    simp [Operand.mode, OperandClass.admits] at h

namespace Instruction

/-- The instruction's operation. -/
def opcode : Instruction → Opcode
  | halt => .halt
  | push _ => .push
  | pop _ => .pop
  | arith op => .arith op
  | print => .print
  | read => .read
  | jump _ => .jump
  | branch c _ => .branch c
  | call _ => .call
  | ret => .ret

/-- The instruction's operand. -/
def operand : Instruction → Operand
  | push src => src.operand
  | pop dst => dst.operand
  | jump t | branch _ t | call t => .imm t
  | halt | arith _ | print | read | ret => .none

/-- The instruction an opcode makes with an operand in a mode its class admits. -/
def make : (op : Opcode) → (o : Operand) → op.operandClass.admits o.mode = true → Instruction
  | .halt, _, _ => halt
  | .push, o, h => push (Source.ofOperand o h)
  | .pop, o, h => pop (Sink.ofOperand o h)
  | .arith a, _, _ => arith a
  | .print, _, _ => print
  | .read, _, _ => read
  | .jump, o, h => jump (o.target h)
  | .branch c, o, h => branch c (o.target h)
  | .call, o, h => call (o.target h)
  | .ret, _, _ => ret

/-- The instruction's first byte: the opcode's id and the mode bits. -/
def opcodeByte (i : Instruction) : UInt8 :=
  (i.opcode.id + 64 * i.operand.mode.bits).toUInt8

/-- The operand's bytes: none, or a 4-byte word. -/
def operandBytes : Operand → List UInt8
  | .none => []
  | .imm v | .memImm v => LittleEndian.word32 v.toUInt32
  | .reg r | .memReg r => LittleEndian.bytes 4 r.id

/-- The instruction's encoding. -/
def encode (i : Instruction) : List UInt8 :=
  i.opcodeByte :: operandBytes i.operand

/-- How many bytes the instruction takes: 1, or 5 with an operand. -/
def size (i : Instruction) : Nat :=
  if i.operand = .none then 1 else 5

/-- The instruction as a listing shows it, in the syntax the assembler reads back. -/
def text (i : Instruction) : String :=
  i.opcode.mnemonic ++ i.operand.suffix

theorem size_pos (i : Instruction) : 0 < i.size := by
  unfold size
  split <;> decide

@[simp] theorem length_operandBytes (o : Operand) :
    (operandBytes o).length = if o = .none then 0 else 4 := by
  cases o <;> simp [operandBytes, LittleEndian.word32]

@[simp] theorem length_encode (i : Instruction) : i.encode.length = i.size := by
  unfold encode size
  split <;> simp_all

theorem admits (i : Instruction) : i.opcode.operandClass.admits i.operand.mode = true := by
  rcases i with _ | ⟨_ | _ | _ | _⟩ | ⟨_ | _ | _ | _⟩ | _ | _ | _ | _ | _ | _ | _ | _ <;> rfl

theorem make_opcode_operand (i : Instruction) : make i.opcode i.operand i.admits = i := by
  rcases i with _ | ⟨_ | _ | _ | _⟩ | ⟨_ | _ | _ | _⟩ | _ | _ | _ | _ | _ | _ | _ | _ <;> rfl

end Instruction

end StackMachine
