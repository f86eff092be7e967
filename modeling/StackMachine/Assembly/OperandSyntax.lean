import StackMachine.Assembly.Cursor
import StackMachine.Isa.Register
import StackMachine.Text.Decimal
/-!
# Operands as written

An operand word is a number, a register name, or a label name. A word that starts with a
digit, or with a sign and a digit, is a number and must be a valid 32-bit literal; otherwise
a register name (ASCII case ignored) wins over a label name; anything else is an invalid
label. A word in brackets is read the same way and marked indirect.
-/

namespace StackMachine

/-- What an operand word denotes. -/
inductive Arg
  | int (value : Int32)
  | reg (r : Register)
  | label (name : String)
  deriving DecidableEq, Repr

/-- Whether a character may appear in a label name. -/
def isNameChar (ch : Char) : Bool := ch.isAlphanum || ch == '_'

/-- Whether a word is a label name: an ASCII letter or `_`, then ASCII letters, digits and
`_`. -/
def isName : List Char → Bool
  | ch :: rest => (ch.isAlpha || ch == '_') && rest.all isNameChar
  | [] => false

/-- What an operand word denotes, or why it denotes nothing. -/
def classify (w : Word) : Except AsmError Arg :=
  if Text.looksNumeric w.chars then
    match Text.parseInt32? w.chars with
    | some v => .ok (.int v)
    | none => .error (.invalidLiteral w.text)
  else
    match Register.ofName? w.text with
    | some r => .ok (.reg r)
    | none => if isName w.chars then .ok (.label w.text) else .error (.invalidLabel w.text)

/-- An operand as written: what it denotes, its word (without brackets), and whether it was
in brackets. -/
structure OperandSyntax where
  arg : Arg
  word : Word
  indirect : Bool
  deriving DecidableEq, Repr

/-- The operand at the cursor, and the cursor after it; none when the line's code is over. -/
def Cursor.operand? (c : Cursor) : Except Diagnostic (Option (OperandSyntax × Cursor)) := do
  let (w, next, indirect) ← match ← c.bracketed? with
    | some (w, next) => pure (w, next, true)
    | none =>
      match c.nextWord? with
      | none => return none
      | some (w, next) => do
        c.checkBrackets w
        pure (w, next, false)
  match classify w with
  | .ok arg => pure (some (⟨arg, w, indirect⟩, next))
  | .error e => c.fail e w.span

end StackMachine
