/-!
# Decimal words

Literals in source and numbers read from input are 32-bit signed integers written in
decimal: an optional `+` or `-`, then one or more ASCII digits, with a value that fits in
the range from -2147483648 to 2147483647.
-/

namespace StackMachine.Text

/-- The value of a nonempty run of ASCII digits, most significant first. -/
def digitsValue? (cs : List Char) : Option Nat :=
  if cs.isEmpty || !cs.all Char.isDigit then none
  else some (cs.foldl (fun n c => 10 * n + (c.toNat - '0'.toNat)) 0)

/-- The 32-bit signed integer a decimal word denotes, if it denotes one. -/
def parseInt32? : List Char → Option Int32
  | '-' :: ds => (digitsValue? ds).bind fun n =>
      if n ≤ 2147483648 then some (Int32.ofInt (-(n : Int))) else none
  | '+' :: ds => (digitsValue? ds).bind fun n =>
      if n ≤ 2147483647 then some (Int32.ofNat n) else none
  | ds => (digitsValue? ds).bind fun n =>
      if n ≤ 2147483647 then some (Int32.ofNat n) else none

/-- Whether a word is meant as a number: it starts with a digit, or with a sign and then a
digit. Such a word is a literal, whether or not it fits in 32 bits. -/
def looksNumeric : List Char → Bool
  | c :: rest => c.isDigit || ((c == '-' || c == '+') && (rest.head?.map Char.isDigit).getD false)
  | [] => false

end StackMachine.Text
