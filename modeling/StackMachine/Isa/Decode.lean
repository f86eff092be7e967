import StackMachine.Isa.Instruction
import StackMachine.Text.Hex
/-!
# Decoding

One decoder serves both the listing and the machine. Reading the instruction at an offset
checks, in order: that there is a byte there, that its low six bits are an opcode id, that
its top two bits give a mode the opcode's class admits, that the four operand bytes are
there, and that a register operand names one of the four registers.
-/

namespace StackMachine

/-- Why the bytes at an offset are not an instruction. -/
inductive DecodeError
  /-- The low six bits of the first byte are no opcode id. -/
  | unknownOpcode (byte : UInt8)
  /-- The top two bits of the first byte give a mode the opcode does not admit. -/
  | invalidMode (byte : UInt8)
  /-- A register operand holds an id no register has. -/
  | badRegister (id : Nat)
  /-- The code ends at this offset, where a byte was needed. -/
  | truncated (offset : Nat)
  deriving DecidableEq, Repr

/-- The error's name in reports. -/
def DecodeError.code : DecodeError → String
  | .unknownOpcode _ => "decode::unknown_opcode"
  | .invalidMode _ => "decode::invalid_mode"
  | .badRegister _ => "decode::bad_register"
  | .truncated _ => "decode::truncated"

/-- The text the error is reported with. -/
def DecodeError.message : DecodeError → String
  | .unknownOpcode b => "unknown opcode byte " ++ Text.hexByte b
  | .invalidMode b => "invalid addressing mode in " ++ Text.hexByte b
  | .badRegister id => s!"invalid register id {id}"
  | .truncated p => s!"operand truncated at offset {p}"

/-- The operand in mode `m` whose bytes start at offset `pos` of `code`. -/
def readOperand (code : Array UInt8) (pos : Nat) (m : Mode) :
    Except DecodeError { o : Operand // o.mode = m } :=
  match m with
  | .none => .ok ⟨.none, rfl⟩
  | m =>
    match code[pos]?, code[pos + 1]?, code[pos + 2]?, code[pos + 3]? with
    | some b0, some b1, some b2, some b3 =>
      let w := LittleEndian.value [b0, b1, b2, b3]
      match m with
      | .none => .ok ⟨.none, rfl⟩
      | .imm => .ok ⟨.imm (Int32.ofNat w), rfl⟩
      | .memImm => .ok ⟨.memImm (Int32.ofNat w), rfl⟩
      | .reg => match Register.ofId? w with
        | some r => .ok ⟨.reg r, rfl⟩
        | none => .error (.badRegister w)
      | .memReg => match Register.ofId? w with
        | some r => .ok ⟨.memReg r, rfl⟩
        | none => .error (.badRegister w)
    | _, _, _, _ => .error (.truncated pos)

/-- The instruction that starts at offset `pos` of `code`. -/
def decodeAt (code : Array UInt8) (pos : Nat) : Except DecodeError Instruction :=
  match code[pos]? with
  | none => .error (.truncated pos)
  | some byte =>
    match Opcode.ofId? (byte.toNat % 64) with
    | none => .error (.unknownOpcode byte)
    | some op =>
      match h : op.operandClass.modeOfBits? (byte.toNat / 64) with
      | none => .error (.invalidMode byte)
      | some m =>
        match readOperand code (pos + 1) m with
        | .error e => .error e
        | .ok ⟨o, ho⟩ => .ok (Instruction.make op o (ho ▸ admits_of_modeOfBits? h))

/-- The instructions from offset `pos` to the end of `code`, each with its offset, read one
after another; or the first error. -/
def listFrom (code : Array UInt8) (pos : Nat) : Except DecodeError (List (Nat × Instruction)) :=
  if pos < code.size then
    match decodeAt code pos with
    | .error e => .error e
    | .ok i => (listFrom code (pos + i.size)).map ((pos, i) :: ·)
  else .ok []
termination_by code.size - pos
decreasing_by have := i.size_pos; omega

/-- The listing of a payload: its instructions with their offsets, from the start. -/
def listing (code : Array UInt8) : Except DecodeError (List (Nat × Instruction)) :=
  listFrom code 0

end StackMachine
