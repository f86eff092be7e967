import StackMachine.LittleEndian
import StackMachine.Text.Hex
/-!
# Images

A payload is stored with a 24-byte header: three 8-byte little-endian words, the signature
`0xDEADF00D`, the format version `0`, and the payload's length. Loading checks the words in
that order, each only once the bytes for it are there, and ends with the length.
-/

namespace StackMachine

/-- The signature that starts every image. -/
def Image.signature : Nat := 0xDEADF00D

/-- The only image format version. -/
def Image.version : Nat := 0

/-- The length of an image header. -/
def Image.headerLength : Nat := 24

/-- A payload as an image holds it. -/
structure Image where
  payload : List UInt8
  deriving DecidableEq, Repr

/-- Why bytes are not an image. -/
inductive ImageError
  /-- The bytes end before a header word; they are this many. -/
  | truncated (length : Nat)
  /-- The first word is not the signature. -/
  | badSignature (found : Nat)
  /-- The second word is not the version. -/
  | badVersion (found : Nat)
  /-- The third word is not the length of what follows the header. -/
  | lengthMismatch (declared actual : Nat)
  deriving DecidableEq, Repr

/-- The error's name in reports. -/
def ImageError.code : ImageError → String
  | .truncated _ => "image::truncated"
  | .badSignature _ => "image::magic"
  | .badVersion _ => "image::version"
  | .lengthMismatch _ _ => "image::length"

/-- The text the error is reported with. -/
def ImageError.message : ImageError → String
  | .truncated n => s!"Image of {n} bytes is too short for a header"
  | .badSignature w => "Bad image signature " ++ Text.hexNumeral w
  | .badVersion w => s!"Unsupported image version {w}"
  | .lengthMismatch d a => s!"Image declares {d} payload bytes but contains {a}"

namespace Image

/-- The image's bytes: the header, then the payload. -/
def toBytes (img : Image) : List UInt8 :=
  LittleEndian.word64 signature ++ LittleEndian.word64 version ++
    LittleEndian.word64 img.payload.length ++ img.payload

/-- Header word `k` of `bytes`, when the bytes reach that far. -/
def headerWord? (bytes : List UInt8) (k : Nat) : Option Nat :=
  if 8 * (k + 1) ≤ bytes.length then
    some (LittleEndian.value ((bytes.drop (8 * k)).take 8))
  else none

/-- Reads an image from bytes. -/
def ofBytes (bytes : List UInt8) : Except ImageError Image := do
  let word (k : Nat) : Except ImageError Nat :=
    match headerWord? bytes k with
    | some w => .ok w
    | none => .error (.truncated bytes.length)
  let magic ← word 0
  if magic ≠ signature then throw (.badSignature magic)
  let ver ← word 1
  if ver ≠ version then throw (.badVersion ver)
  let declared ← word 2
  let actual := bytes.length - headerLength
  if declared ≠ actual then throw (.lengthMismatch declared actual)
  pure ⟨bytes.drop headerLength⟩

end Image

end StackMachine
