import StackMachine.Source
import StackMachine.Isa.Opcode
/-!
# Assembly diagnostics

Each line of source yields at most one error. An error has a kind, the line it was found on
(counted from 0), and a span of the program text it points at. The kinds' codes, texts, help
texts and span labels are what reports show.
-/

namespace StackMachine

/-- How brackets around an operand are wrong. -/
inductive BracketError
  /-- A `[` with no `]` before the comment or the end of the line. -/
  | unclosed
  /-- Nothing but blanks between `[` and `]`. -/
  | empty
  /-- A `]` with no `[` before it. -/
  | unopened
  deriving DecidableEq, Repr

/-- What is wrong with a line of assembly. -/
inductive AsmError
  | unknownMnemonic (word : String)
  | missingOperand (op : Opcode)
  | unexpectedOperand (op : Opcode)
  | invalidOperand (op : Opcode) (found : String)
  | invalidLiteral (word : String)
  | invalidLabel (word : String)
  | bracket (e : BracketError)
  | unresolvedLabel (name : String)
  | duplicateLabel (name : String) (firstLine : Nat)
  | trailingInput (word : String)
  deriving DecidableEq, Repr

namespace AsmError

/-- The error's name in reports. -/
def code : AsmError → String
  | unknownMnemonic _ => "asm::unknown_mnemonic"
  | missingOperand _ => "asm::missing_operand"
  | unexpectedOperand _ => "asm::unexpected_operand"
  | invalidOperand _ _ => "asm::invalid_operand"
  | invalidLiteral _ => "asm::bad_lit"
  | invalidLabel _ => "asm::bad_label"
  | bracket _ => "asm::bracket"
  | unresolvedLabel _ => "asm::unresolved_label"
  | duplicateLabel _ _ => "asm::duplicate_label"
  | trailingInput _ => "asm::trailing_input"

/-- What the error says. -/
def message : AsmError → String
  | unknownMnemonic w => "Unknown mnemonic `" ++ w ++ "`"
  | missingOperand op => "Missing operand for `" ++ op.mnemonic ++ "`"
  | unexpectedOperand op => "Unexpected operand for `" ++ op.mnemonic ++ "`"
  | invalidOperand op found => "Invalid operand `" ++ found ++ "` for `" ++ op.mnemonic ++ "`"
  | invalidLiteral w => "Encountered an invalid literal `" ++ w ++ "`"
  | invalidLabel w => "Invalid label name `" ++ w ++ "`"
  | bracket .unclosed => "Unclosed bracket"
  | bracket .empty => "Empty brackets"
  | bracket .unopened => "Closing bracket without opening bracket"
  | unresolvedLabel name => "Unresolved label `" ++ name ++ "`"
  | duplicateLabel name _ => "Duplicate label `" ++ name ++ "`"
  | trailingInput w => "Unexpected trailing input `" ++ w ++ "`"

/-- How to fix the error. -/
def help : AsmError → String
  | unknownMnemonic _ => "lines should start with an instruction or a `label:` definition"
  | missingOperand op => "`" ++ op.mnemonic ++ "` requires an operand"
  | unexpectedOperand op => "`" ++ op.mnemonic ++ "` takes no operand"
  | invalidOperand op _ => "check the type of operands allowed for `" ++ op.mnemonic ++ "`"
  | invalidLiteral _ => "literals are decimal and range from -2,147,483,648 to 2,147,483,647"
  | invalidLabel _ => "labels are letters, digits and `_`, and cannot be register names"
  | bracket .unclosed => "close the operand with `]`"
  | bracket .empty => "put a register or an address inside the brackets"
  | bracket .unopened => "open the indirect operand with `[`"
  | unresolvedLabel _ => "define the label with `name:` on some line"
  | duplicateLabel _ first =>
    s!"labels may only be defined once; first defined on line {first + 1}"
  | trailingInput _ => "put a single instruction on each line"

/-- What the span is marked with. -/
def label : AsmError → String
  | unknownMnemonic _ => "unknown mnemonic"
  | missingOperand _ => "operand expected after this"
  | unexpectedOperand _ => "unexpected operand"
  | invalidOperand _ _ => "invalid operand"
  | invalidLiteral _ => "incorrect literal"
  | invalidLabel _ => "incorrect label"
  | bracket _ => "bracket mismatch"
  | unresolvedLabel _ => "undefined label"
  | duplicateLabel _ _ => "duplicate label"
  | trailingInput _ => "unexpected token"

end AsmError

/-- An assembly error with where it was found. -/
structure Diagnostic where
  error : AsmError
  /-- The line, counted from 0. -/
  line : Nat
  span : Span
  deriving DecidableEq, Repr

/-- The diagnostic's text: the line, counted from 1, and what is wrong. -/
def Diagnostic.message (d : Diagnostic) : String :=
  s!"line {d.line + 1}: " ++ d.error.message

/-- Why a program could not be assembled: the errors of the pass that failed, in line
order. -/
structure CompileError where
  diagnostics : List Diagnostic
  deriving DecidableEq, Repr

/-- The error's name in reports. -/
def CompileError.code (_ : CompileError) : String := "asm::compilation_failed"

/-- The text the error is reported with: the one diagnostic, or how many there are. -/
def CompileError.message (e : CompileError) : String :=
  match e.diagnostics with
  | [d] => "Compilation failed: " ++ d.message
  | ds => s!"Compilation failed with {ds.length} errors"

end StackMachine
