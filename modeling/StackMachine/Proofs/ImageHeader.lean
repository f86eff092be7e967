import Mathlib
import StackMachine.Image
import StackMachine.Proofs.Codec
/-!
# The image header gate

Loading an image checks three header words, each read only once the bytes reach it.
`ofBytes_eq` says so as a chain of tests on the length and the words read so far, and the
rest of the module reads that chain two ways. `ofBytes_eq_ok_iff`: loading succeeds exactly on
bytes of at least a header whose words are the signature, the version and the number of bytes
after the header, and `toBytes_of_ofBytes`: the image loaded then writes back as those very
bytes. `ofBytes_eq_error_iff`: when loading fails, the error is that of the first check that
does not pass, where a word the bytes do not reach is a truncation. `ofBytes_toBytes`: every
image whose payload length fits a header word loads back as itself.
-/

namespace StackMachine

namespace Image

/-- Header word `k` of `bytes`, from those of its eight bytes that are there. -/
def field (bytes : List UInt8) (k : Nat) : Nat :=
  LittleEndian.value ((bytes.drop (8 * k)).take 8)

theorem headerWord?_of_le {bytes : List UInt8} {k : Nat} (h : 8 * (k + 1) ≤ bytes.length) :
    headerWord? bytes k = some (field bytes k) := by
  simp [headerWord?, h, field]

theorem headerWord?_of_lt {bytes : List UInt8} {k : Nat} (h : bytes.length < 8 * (k + 1)) :
    headerWord? bytes k = none := by
  simp [headerWord?, Nat.not_le.2 h]

/-! ## Loading as a chain of checks -/

/-- Loading tests the length before each word it reads, and each word once read. -/
theorem ofBytes_eq (bytes : List UInt8) : ofBytes bytes =
    if bytes.length < 8 then .error (.truncated bytes.length)
    else if field bytes 0 ≠ signature then .error (.badSignature (field bytes 0))
    else if bytes.length < 16 then .error (.truncated bytes.length)
    else if field bytes 1 ≠ version then .error (.badVersion (field bytes 1))
    else if bytes.length < 24 then .error (.truncated bytes.length)
    else if field bytes 2 ≠ bytes.length - 24 then
      .error (.lengthMismatch (field bytes 2) (bytes.length - 24))
    else .ok ⟨bytes.drop 24⟩ := by
  unfold ofBytes
  simp only [bind, Except.bind, pure, Except.pure, throw, throwThe, MonadExceptOf.throw]
  by_cases h0 : bytes.length < 8
  · simp [headerWord?_of_lt (k := 0) h0, h0]
  rw [headerWord?_of_le (k := 0) (by omega), if_neg h0]
  by_cases h1 : bytes.length < 16
  · simp [headerWord?_of_lt (k := 1) h1, h1]
  rw [headerWord?_of_le (k := 1) (by omega), if_neg h1]
  by_cases h2 : bytes.length < 24
  · simp [headerWord?_of_lt (k := 2) h2, h2]
  rw [headerWord?_of_le (k := 2) (by omega), if_neg h2]
  rfl

/-- Why loading bytes fails: the first check that does not pass, each case holding the checks
before it. -/
inductive HeaderFailure (bytes : List UInt8) : ImageError → Prop
  /-- The bytes end before the signature word. -/
  | noSignature : bytes.length < 8 → HeaderFailure bytes (.truncated bytes.length)
  /-- The first word is not the signature. -/
  | badSignature : 8 ≤ bytes.length → field bytes 0 ≠ signature →
      HeaderFailure bytes (.badSignature (field bytes 0))
  /-- The bytes end before the version word. -/
  | noVersion : 8 ≤ bytes.length → field bytes 0 = signature → bytes.length < 16 →
      HeaderFailure bytes (.truncated bytes.length)
  /-- The second word is not the version. -/
  | badVersion : 16 ≤ bytes.length → field bytes 0 = signature → field bytes 1 ≠ version →
      HeaderFailure bytes (.badVersion (field bytes 1))
  /-- The bytes end before the length word. -/
  | noLength : 16 ≤ bytes.length → field bytes 0 = signature → field bytes 1 = version →
      bytes.length < 24 → HeaderFailure bytes (.truncated bytes.length)
  /-- The third word is not the number of bytes after the header. -/
  | lengthMismatch : 24 ≤ bytes.length → field bytes 0 = signature → field bytes 1 = version →
      field bytes 2 ≠ bytes.length - 24 →
      HeaderFailure bytes (.lengthMismatch (field bytes 2) (bytes.length - 24))

variable {bytes : List UInt8}

theorem ofBytes_eq_ok_iff {img : Image} :
    ofBytes bytes = .ok img ↔ 24 ≤ bytes.length ∧ field bytes 0 = signature ∧
      field bytes 1 = version ∧ field bytes 2 = bytes.length - 24 ∧ img = ⟨bytes.drop 24⟩ := by
  rw [ofBytes_eq]
  constructor
  · intro h
    split_ifs at h with h0 hs h1 hv h2 hd
    cases h
    exact ⟨by omega, not_not.1 hs, not_not.1 hv, not_not.1 hd, rfl⟩
  · rintro ⟨hlen, hs, hv, hd, rfl⟩
    rw [if_neg (by omega), if_neg (not_not.2 hs), if_neg (by omega), if_neg (not_not.2 hv),
      if_neg (by omega), if_neg (not_not.2 hd)]

theorem ofBytes_eq_error_iff {e : ImageError} :
    ofBytes bytes = .error e ↔ HeaderFailure bytes e := by
  rw [ofBytes_eq]
  constructor
  · intro h
    split_ifs at h with h0 hs h1 hv h2 hd <;> cases h
    · exact .noSignature h0
    · exact .badSignature (by omega) hs
    · exact .noVersion (by omega) (not_not.1 hs) h1
    · exact .badVersion (by omega) (not_not.1 hs) hv
    · exact .noLength (by omega) (not_not.1 hs) (not_not.1 hv) h2
    · exact .lengthMismatch (by omega) (not_not.1 hs) (not_not.1 hv) hd
  · intro h
    cases h with
    | noSignature h0 => rw [if_pos h0]
    | badSignature h0 hs => rw [if_neg (by omega), if_pos hs]
    | noVersion h0 hs h1 => rw [if_neg (by omega), if_neg (not_not.2 hs), if_pos h1]
    | badVersion h1 hs hv =>
      rw [if_neg (by omega), if_neg (not_not.2 hs), if_neg (by omega), if_pos hv]
    | noLength h1 hs hv h2 =>
      rw [if_neg (by omega), if_neg (not_not.2 hs), if_neg (by omega), if_neg (not_not.2 hv),
        if_pos h2]
    | lengthMismatch h2 hs hv hd =>
      rw [if_neg (by omega), if_neg (not_not.2 hs), if_neg (by omega), if_neg (not_not.2 hv),
        if_neg (by omega), if_pos hd]

/-- A wrong signature is reported before the bytes are found too short for the version. -/
example : ofBytes (List.replicate 10 0) = .error (.badSignature 0) := by decide

/-! ## Writing and loading -/

theorem word64_field {k : Nat} (h : 8 * (k + 1) ≤ bytes.length) :
    LittleEndian.word64 (field bytes k) = (bytes.drop (8 * k)).take 8 := by
  have hlen : ((bytes.drop (8 * k)).take 8).length = 8 := by
    simp
    omega
  have h := LittleEndian.bytes_value ((bytes.drop (8 * k)).take 8)
  rwa [hlen] at h

theorem field_append {a r : List UInt8} {k n : Nat} (ha : a.length = 8 * k) :
    field (a ++ LittleEndian.word64 n ++ r) k = n % 2 ^ 64 := by
  rw [field, List.append_assoc, List.drop_append_of_le_length (by omega),
    List.drop_of_length_le (by omega), List.nil_append, LittleEndian.word64,
    List.take_left' (LittleEndian.length_bytes 8 n), LittleEndian.value_bytes]
  norm_num

/-- Loaded bytes are the header of what they hold, then what they hold. -/
theorem toBytes_of_ofBytes {img : Image} (h : ofBytes bytes = .ok img) : img.toBytes = bytes := by
  obtain ⟨hlen, hs, hv, hd, rfl⟩ := ofBytes_eq_ok_iff.1 h
  have hpay : (bytes.drop 24).length = field bytes 2 := by simp [hd]
  rw [toBytes, hpay, ← hs, ← hv, word64_field (k := 0) (by omega),
    word64_field (k := 1) (by omega), word64_field (k := 2) (by omega)]
  -- the three words and the payload are consecutive slices of the bytes
  calc (bytes.drop (8 * 0)).take 8 ++ (bytes.drop (8 * 1)).take 8 ++
        (bytes.drop (8 * 2)).take 8 ++ bytes.drop 24
      = bytes.take 8 ++ ((bytes.drop 8).take 8 ++ (((bytes.drop 8).drop 8).take 8 ++
          ((bytes.drop 8).drop 8).drop 8)) := by simp [List.drop_drop, List.append_assoc]
    _ = bytes := by simp only [List.take_append_drop]

theorem field_toBytes (img : Image) :
    field img.toBytes 0 = signature ∧ field img.toBytes 1 = version ∧
      field img.toBytes 2 = img.payload.length % 2 ^ 64 := by
  refine ⟨?_, ?_, ?_⟩
  · simpa [toBytes, signature] using field_append (a := []) (k := 0) (n := signature)
      (r := LittleEndian.word64 version ++ LittleEndian.word64 img.payload.length ++
        img.payload) rfl
  · simpa [toBytes, version] using field_append (a := LittleEndian.word64 signature) (k := 1)
      (n := version) (r := LittleEndian.word64 img.payload.length ++ img.payload)
      (by simp [LittleEndian.word64])
  · simpa [toBytes] using field_append
      (a := LittleEndian.word64 signature ++ LittleEndian.word64 version) (k := 2)
      (n := img.payload.length) (r := img.payload) (by simp [LittleEndian.word64])

/-- An image loads back from its bytes when its payload length fits the 64-bit header word,
as the length of any byte string in memory does. -/
theorem ofBytes_toBytes (img : Image) (h : img.payload.length < 2 ^ 64) :
    ofBytes img.toBytes = .ok img := by
  obtain ⟨hs, hv, hd⟩ := field_toBytes img
  have hlen : img.toBytes.length = 24 + img.payload.length := by
    simp [toBytes, LittleEndian.word64]
    omega
  refine ofBytes_eq_ok_iff.2 ⟨by omega, hs, hv, ?_, ?_⟩
  · rw [hd, hlen, Nat.mod_eq_of_lt h]
    omega
  · rw [toBytes, List.drop_left' (by simp [LittleEndian.word64])]

/-- The header gate accepts exactly the images that are written. Loading succeeds exactly on
bytes of at least 24 whose three 8-byte little-endian words are the signature, the version and
the number of bytes after the header; it then holds the bytes after the header and writes back
as the bytes loaded. Otherwise it fails with the first check that does not pass, in the order
signature, version, length, each word read only once the bytes reach it. And a payload, as
any byte string in memory, has fewer than `2 ^ 64` bytes, and then its image holds it and
loads back as itself. -/
theorem ofBytes_accepts_exactly_written :
    (∀ bytes img, ofBytes bytes = .ok img ↔ 24 ≤ bytes.length ∧ field bytes 0 = signature ∧
      field bytes 1 = version ∧ field bytes 2 = bytes.length - 24 ∧ img = ⟨bytes.drop 24⟩) ∧
    (∀ bytes img, ofBytes bytes = .ok img → img.toBytes = bytes) ∧
    (∀ bytes e, ofBytes bytes = .error e ↔ HeaderFailure bytes e) ∧
    (∀ payload : List UInt8, payload.length < 2 ^ 64 →
      (Image.mk payload).payload = payload ∧ ofBytes (Image.mk payload).toBytes = .ok ⟨payload⟩) :=
  ⟨fun _ _ => ofBytes_eq_ok_iff, fun _ _ => toBytes_of_ofBytes, fun _ _ => ofBytes_eq_error_iff,
    fun payload h => ⟨rfl, ofBytes_toBytes ⟨payload⟩ h⟩⟩

/-- Three payload bytes are written behind a header and load back. -/
theorem ofBytes_accepts_written_three :
    ([1, 2, 3] : List UInt8).length < 2 ^ 64 ∧ (Image.mk [1, 2, 3]).payload = [1, 2, 3] ∧
      ofBytes (Image.mk [1, 2, 3]).toBytes = .ok ⟨[1, 2, 3]⟩ :=
  ⟨by norm_num, ofBytes_accepts_exactly_written.2.2.2 [1, 2, 3] (by norm_num)⟩

end Image

end StackMachine
