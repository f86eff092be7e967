import StackMachine.Text.Ascii
import StackMachine.Text.Blank
import StackMachine.Text.Decimal
import StackMachine.Text.Hex
import StackMachine.Text.Utf8
import StackMachine.LittleEndian
import StackMachine.Source
import StackMachine.Isa.Register
import StackMachine.Isa.Opcode
import StackMachine.Isa.Operand
import StackMachine.Isa.Instruction
import StackMachine.Isa.Decode
import StackMachine.Image
import StackMachine.Stack
import StackMachine.Assembly.LabelTable
import StackMachine.Assembly.Diagnostic
import StackMachine.Assembly.Cursor
import StackMachine.Assembly.OperandSyntax
import StackMachine.Assembly.Statement
import StackMachine.Assembly.Assemble
import StackMachine.Cpu.State
import StackMachine.Cpu.Input
import StackMachine.Cpu.Step
import StackMachine.Cpu.Run
import StackMachine.Main
import StackMachine.Proofs.Codec
import StackMachine.Proofs.Execution
import StackMachine.Proofs.Resolution
import StackMachine.Proofs.Boundaries
import StackMachine.Proofs.ImageHeader
import StackMachine.Proofs.Words
import StackMachine.Proofs.Lexer
import StackMachine.Proofs.LineGrammar
import StackMachine.Proofs.SourceText
import StackMachine.Proofs.Reassembly
import StackMachine.Proofs.CompileErrors
import StackMachine.Proofs.InstructionTable
import StackMachine.Proofs.Padding
import StackMachine.Proofs.CallStack
import StackMachine.Proofs.Dispatch
import StackMachine.Proofs.Listing
import StackMachine.Proofs.Utf8Decoding
import StackMachine.Proofs.SourceLines
import StackMachine.Proofs.DiagnosticSpans
import StackMachine.Proofs.ByteCursor
import StackMachine.Proofs.ByteAssembler
import StackMachine.Proofs.ByteRefinement
import StackMachine.Proofs.FirstBinding
