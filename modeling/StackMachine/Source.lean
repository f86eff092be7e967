import StackMachine.Text.Utf8
/-!
# Program source

A program arrives as bytes. It is split after every newline byte, each piece is checked as
UTF-8 on its own, so an error's offset counts from the start of its line, and each piece loses
its newline and then one carriage return. The lines joined by newlines form the program text
that diagnostics point into; `offsets` gives where each line starts in it.
-/

namespace StackMachine

/-- A byte range of the program text: where it starts and how many bytes it covers. -/
structure Span where
  offset : Nat
  length : Nat
  deriving DecidableEq, Repr

/-- Why bytes could not be read as a program. -/
inductive SourceError
  /-- A line is not UTF-8; the error counts bytes from the start of the line. -/
  | notUtf8 (err : Text.Utf8Error)
  deriving DecidableEq, Repr

/-- The error's name in reports. -/
def SourceError.code : SourceError → String
  | .notUtf8 _ => "source::read"

/-- The text the error is reported with. -/
def SourceError.message : SourceError → String
  | .notUtf8 e => "Failed to read source: " ++ e.message

/-- Assembly source as lines, without their line breaks. -/
structure Program where
  lines : List String
  deriving DecidableEq, Repr

namespace Program

/-- The pieces of a byte string that end with a newline byte, each keeping it; a last piece
without one when the string does not end in a newline. No piece is empty, and the pieces
joined give the string back. `acc` is the piece being gathered, reversed. -/
def chunks (acc : List UInt8) : List UInt8 → List (List UInt8)
  | [] => if acc.isEmpty then [] else [acc.reverse]
  | b :: bs => if b = 10 then (b :: acc).reverse :: chunks [] bs else chunks (b :: acc) bs

/-- A line without one trailing newline and then without one trailing carriage return. -/
def stripBreak (cs : List Char) : List Char :=
  let cs := if cs.getLast? = some '\n' then cs.dropLast else cs
  if cs.getLast? = some '\r' then cs.dropLast else cs

/-- One piece of the byte string as a line of text. -/
def readLine (chunk : List UInt8) : Except SourceError String :=
  match Text.decode chunk with
  | .ok cs => .ok (String.ofList (stripBreak cs))
  | .error e => .error (.notUtf8 e)

/-- Reads a program from bytes; the first line that is not UTF-8 stops the reading. -/
def read (bytes : List UInt8) : Except SourceError Program :=
  (chunks [] bytes).mapM readLine |>.map Program.mk

/-- The program text: the lines joined by newlines. -/
def text (p : Program) : String :=
  "\n".intercalate p.lines

/-- Where each of `lines` starts, when the first starts at `start` and each is followed by a
newline. -/
def offsetsFrom (start : Nat) : List String → List Nat
  | [] => []
  | l :: ls => start :: offsetsFrom (start + l.utf8ByteSize + 1) ls

/-- The byte offset in the program text at which each line starts. -/
def offsets (p : Program) : List Nat :=
  offsetsFrom 0 p.lines

end Program

end StackMachine
