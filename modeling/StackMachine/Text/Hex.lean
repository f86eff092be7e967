/-!
# Hexadecimal text

Bytes and header words appear in messages as lowercase hexadecimal numerals with a `0x`
prefix: a byte always with two digits (`0x05`), a header word with as few as it needs
(`0x0`, `0xdeadf00d`). Byte strings are written as two lowercase digits per byte, and read
back with either case, blanks between digits ignored.
-/

namespace StackMachine.Text

/-- A number in lowercase hexadecimal with a `0x` prefix and no leading zeros. -/
def hexNumeral (n : Nat) : String :=
  "0x" ++ String.ofList (Nat.toDigits 16 n)

/-- The lowercase digit of a value below 16. -/
def hexDigit (n : Nat) : Char :=
  if n < 10 then Char.ofNat ('0'.toNat + n) else Char.ofNat ('a'.toNat + n - 10)

/-- A byte's two lowercase hexadecimal digits. -/
def hexDigits (b : UInt8) : List Char :=
  [hexDigit (b.toNat / 16), hexDigit (b.toNat % 16)]

/-- A byte in lowercase hexadecimal with a `0x` prefix and two digits. -/
def hexByte (b : UInt8) : String :=
  "0x" ++ String.ofList (hexDigits b)

/-- Bytes as text, two lowercase digits each. -/
def hexOfBytes (bytes : List UInt8) : String :=
  String.ofList (bytes.flatMap hexDigits)

/-- The value of a hexadecimal digit of either case. -/
def hexValue? (c : Char) : Option Nat :=
  if c.isDigit then some (c.toNat - '0'.toNat)
  else if 'a' ≤ c ∧ c ≤ 'f' then some (c.toNat - 'a'.toNat + 10)
  else if 'A' ≤ c ∧ c ≤ 'F' then some (c.toNat - 'A'.toNat + 10)
  else none

/-- Why text is not a byte string in hexadecimal. -/
inductive HexError
  /-- A character that is neither a digit nor a blank. -/
  | badDigit (c : Char)
  /-- An odd number of digits. -/
  | oddLength
  deriving DecidableEq, Repr

/-- Bytes from digit pairs. -/
def bytesOfDigits : List Char → Except HexError (List UInt8)
  | [] => .ok []
  | [_] => .error .oddLength
  | a :: b :: rest =>
    match hexValue? a, hexValue? b with
    | some x, some y => (bytesOfDigits rest).map ((16 * x + y).toUInt8 :: ·)
    | none, _ => .error (.badDigit a)
    | _, none => .error (.badDigit b)

/-- The bytes that text in hexadecimal stands for; ASCII blanks between digits are
ignored. -/
def bytesOfHex (s : String) : Except HexError (List UInt8) :=
  bytesOfDigits (s.toList.filter fun c => !c.isWhitespace)

end StackMachine.Text
