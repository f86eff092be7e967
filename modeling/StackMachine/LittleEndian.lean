/-!
# Little-endian words

Instruction operands are 4-byte words and image header fields 8-byte words, both least
significant byte first. A word is a natural number written in a fixed number of bytes;
reading the bytes back gives the number modulo the width's range.
-/

namespace StackMachine.LittleEndian

/-- The `w` bytes of `n`, least significant first; what does not fit is dropped. -/
def bytes : Nat → Nat → List UInt8
  | 0, _ => []
  | w + 1, n => (n % 256).toUInt8 :: bytes w (n / 256)

/-- The number whose bytes, least significant first, are given. -/
def value : List UInt8 → Nat
  | [] => 0
  | b :: bs => b.toNat + 256 * value bs

@[simp] theorem length_bytes (w n : Nat) : (bytes w n).length = w := by
  induction w generalizing n with
  | zero => rfl
  | succ w ih => simp [bytes, ih]

/-- A 32-bit word as four bytes. -/
def word32 (v : UInt32) : List UInt8 :=
  bytes 4 v.toNat

/-- An 8-byte header word. -/
def word64 (n : Nat) : List UInt8 :=
  bytes 8 n

end StackMachine.LittleEndian
