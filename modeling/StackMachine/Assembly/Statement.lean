import StackMachine.Assembly.OperandSyntax
import StackMachine.Assembly.LabelTable
import StackMachine.Isa.Instruction
/-!
# Statements

A line holds at most a label definition `name:` and then one instruction, a mnemonic and the
operand its class calls for. The label comes first because it is bound before the rest of
the line is read: a line whose instruction is wrong still defines its label.

An instruction whose operand names a label is kept as a `Form.toLabel` until the label table
is complete; it takes five bytes whatever the label's offset turns out to be, so the first
pass can lay out the code without knowing it.
-/

namespace StackMachine

/-- How a line begins: the label it defines, if any, and the word after it with the cursor
after that word, if there is one. -/
structure Head where
  label : Option (String × Span)
  mnemonic : Option (Word × Cursor)

/-- Reads how a line begins. A first word ending in `:` defines a label; the name must be a
label name and no register's. -/
def Cursor.head (c : Cursor) : Except Diagnostic Head :=
  match c.nextWord? with
  | none => .ok ⟨none, none⟩
  | some (w, next) =>
    if w.chars.getLast? = some ':' then
      let name := w.chars.dropLast
      let span : Span := ⟨w.span.offset, w.span.length - 1⟩
      if !isName name || (Register.ofName? (String.ofList name)).isSome then
        c.fail (.invalidLabel (String.ofList name)) span
      else .ok ⟨some (String.ofList name, span), next.nextWord?⟩
    else .ok ⟨none, some (w, next)⟩

/-- An instruction as a line writes it: complete, or a jump or call to a label not yet
looked up. -/
inductive Form
  | fixed (i : Instruction)
  | toLabel (op : Opcode) (isTarget : op.operandClass = .target) (name : String) (span : Span)

/-- How many bytes the instruction takes. -/
def Form.size : Form → Nat
  | .fixed i => i.size
  | .toLabel .. => 5

/-- The instruction, with a label operand replaced by the label's offset. -/
def Form.resolve (labels : LabelTable) (line : Nat) : Form → Except Diagnostic Instruction
  | .fixed i => .ok i
  | .toLabel op isTarget name span =>
    match labels.get? name with
    | some d => .ok (Instruction.make op (.imm d.ip.toInt32) (by rw [isTarget]; rfl))
    | none => .error ⟨.unresolvedLabel name, line, span⟩

/-- The operand an operand word gives an opcode of the source or sink class, before the
class is checked. -/
def OperandSyntax.direct? (o : OperandSyntax) : Option Operand :=
  match o.arg, o.indirect with
  | .int v, false => some (.imm v)
  | .int a, true => some (.memImm a)
  | .reg r, false => some (.reg r)
  | .reg r, true => some (.memReg r)
  | .label _, _ => none

/-- The instruction an opcode makes with the operand read after it, if its class admits
that operand. `mnemonicSpan` is where the mnemonic stands. -/
def Cursor.form (c : Cursor) (op : Opcode) (mnemonicSpan : Span) (o? : Option OperandSyntax) :
    Except Diagnostic Form :=
  let invalid (o : OperandSyntax) : Except Diagnostic Form :=
    c.fail (.invalidOperand op o.word.text) o.word.span
  match hc : op.operandClass, o? with
  | .nullary, none => .ok (.fixed (Instruction.make op .none (by rw [hc]; rfl)))
  | .sink, none => .ok (.fixed (Instruction.make op .none (by rw [hc]; rfl)))
  | _, none => c.fail (.missingOperand op) mnemonicSpan
  | .nullary, some o => c.fail (.unexpectedOperand op) o.word.span
  | .target, some o =>
    if o.indirect then invalid o
    else match o.arg with
      | .int v => .ok (.fixed (Instruction.make op (.imm v) (by rw [hc]; rfl)))
      | .reg _ => invalid o
      | .label name => .ok (.toLabel op hc name o.word.span)
  | _, some o =>
    match o.direct? with
    | some operand =>
      if h : op.operandClass.admits operand.mode then .ok (.fixed (Instruction.make op operand h))
      else invalid o
    | none => invalid o

/-- Reads the instruction of a line from its mnemonic on: the operand, then nothing but a
comment. -/
def Cursor.instruction (c : Cursor) (mnemonic : Word) : Except Diagnostic Form := do
  let some op := Opcode.ofMnemonic? mnemonic.text
    | c.fail (.unknownMnemonic mnemonic.text) mnemonic.span
  let read ← c.operand?
  let form ← c.form op mnemonic.span (read.map (·.1))
  let after := (read.map (·.2)).getD c
  match after.nextWord? with
  | some (extra, _) => do
    c.checkBrackets extra
    c.fail (.trailingInput extra.text) extra.span
  | none => pure form

end StackMachine
