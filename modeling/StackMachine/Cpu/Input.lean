import StackMachine.Cpu.State
import StackMachine.Text.Blank
import StackMachine.Text.Decimal
import StackMachine.Text.Utf8
/-!
# Reading numbers

`in` reads one line of input, through its newline or to the end of the input, and expects
it to hold one 32-bit decimal integer between blanks.
-/

namespace StackMachine

/-- The input's first line, through its newline if it has one, and what follows. -/
def splitLine (input : List UInt8) : List UInt8 × List UInt8 :=
  match input.span (· ≠ 10) with
  | (line, nl :: rest) => (line ++ [nl], rest)
  | (line, []) => (line, [])

/-- The number on the input's first line, and the input after that line. -/
def readNumber (input : List UInt8) : Except InputError (Int32 × List UInt8) :=
  if input.isEmpty then .error .endOfInput
  else
    let (line, rest) := splitLine input
    match Text.decode line with
    | .error _ => .error .notUtf8
    | .ok cs =>
      let t := Text.trim cs
      match Text.parseInt32? t with
      | some v => .ok (v, rest)
      | none => .error (.notInteger (String.ofList t))

end StackMachine
