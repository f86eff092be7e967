/-!
# Checking UTF-8

Source lines and input lines arrive as bytes and must be UTF-8. When they are not, the
message names the offset of the first bad sequence and how long it is, where the length
follows the "maximal subpart" rule of the Unicode standard: the lead byte fixes how many
continuation bytes follow and the range of the first of them, and the bad sequence is the
lead byte and the continuation bytes that were still acceptable. When the bytes end inside a
sequence that was acceptable so far, the sequence is incomplete rather than invalid.
-/

namespace StackMachine.Text

/-- Where a byte string stops being UTF-8. -/
structure Utf8Error where
  /-- How many bytes before the bad sequence; they are all valid. -/
  validUpTo : Nat
  /-- The length of the bad sequence, or `none` when the bytes end inside a sequence that is
  acceptable so far. -/
  errorLength : Option Nat
  deriving DecidableEq, Repr

/-- The text the error is reported with. -/
def Utf8Error.message : Utf8Error → String
  | ⟨i, some n⟩ => s!"invalid utf-8 sequence of {n} bytes from index {i}"
  | ⟨i, none⟩ => s!"incomplete utf-8 byte sequence from index {i}"

/-- What a first byte announces: how many continuation bytes follow, and the least and the
greatest value the first of them may take. A byte that starts no character announces
nothing. -/
def leadOf (b : UInt8) : Option (Nat × UInt8 × UInt8) :=
  if b < 0x80 then some (0, 0x80, 0xBF)
  else if 0xC2 ≤ b ∧ b ≤ 0xDF then some (1, 0x80, 0xBF)
  else if b = 0xE0 then some (2, 0xA0, 0xBF)
  else if 0xE1 ≤ b ∧ b ≤ 0xEC then some (2, 0x80, 0xBF)
  else if b = 0xED then some (2, 0x80, 0x9F)
  else if 0xEE ≤ b ∧ b ≤ 0xEF then some (2, 0x80, 0xBF)
  else if b = 0xF0 then some (3, 0x90, 0xBF)
  else if 0xF1 ≤ b ∧ b ≤ 0xF3 then some (3, 0x80, 0xBF)
  else if b = 0xF4 then some (3, 0x80, 0x8F)
  else none

/-- How many of the first `k` bytes continue a character: the first must lie in `lo..hi`,
the others in `0x80..0xBF`, and counting stops at the first that does not. -/
def tailMatch : Nat → UInt8 → UInt8 → List UInt8 → Nat
  | 0, _, _, _ => 0
  | _ + 1, _, _, [] => 0
  | k + 1, lo, hi, b :: bs => if lo ≤ b ∧ b ≤ hi then tailMatch k 0x80 0xBF bs + 1 else 0

/-- The code point of a lead byte followed by `tail`, its `tail.length` continuation bytes. -/
def codePoint (lead : UInt8) (tail : List UInt8) : Nat :=
  let high := match tail.length with
    | 0 => lead.toNat
    | 1 => lead.toNat % 32
    | 2 => lead.toNat % 16
    | _ => lead.toNat % 8
  tail.foldl (fun v t => 64 * v + t.toNat % 64) high

/-- Decodes bytes that start at offset `pos` of a longer string, reporting offsets in that
string. -/
def decodeFrom (pos : Nat) : List UInt8 → Except Utf8Error (List Char)
  | [] => .ok []
  | b :: bs =>
    match leadOf b with
    | none => .error ⟨pos, some 1⟩
    | some (k, lo, hi) =>
      let j := tailMatch k lo hi bs
      if j = k then
        (decodeFrom (pos + 1 + k) (bs.drop k)).map (Char.ofNat (codePoint b (bs.take k)) :: ·)
      else if j = bs.length then .error ⟨pos, none⟩
      else .error ⟨pos, some (j + 1)⟩
termination_by bytes => bytes.length
decreasing_by simp only [List.length_drop, List.length_cons]; omega

/-- The characters a byte string encodes in UTF-8, or where it stops being UTF-8. -/
def decode (bytes : List UInt8) : Except Utf8Error (List Char) :=
  decodeFrom 0 bytes

end StackMachine.Text
