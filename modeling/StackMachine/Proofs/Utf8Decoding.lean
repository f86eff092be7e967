import Mathlib
import StackMachine.Text.Utf8
/-!
# UTF-8 decoding is exact

The decoder accepts exactly the byte strings that are UTF-8 encodings of characters, and then
gives back those characters: `decode_eq_ok_iff`, where the encoding is core's
`String.utf8EncodeChar`. So `decode` succeeds exactly on the byte strings that core calls valid
UTF-8 (`decode_isOk_iff`).

Both directions read the table of first bytes on the byte's value (`leadOf_one` to
`leadOf_none`). Going forward, a character's encoding starts with the first byte its size calls
for, and its continuation bytes lie in the ranges that byte announces
(`decodeFrom_utf8EncodeChar_append`). Going back, a first byte and continuation bytes in those
ranges are the encoding of the code point they spell, which is a character: the ranges rule out
surrogates and values past `0x10FFFF` (`utf8EncodeChar_codePoint`).
-/

namespace StackMachine.Text

/-! ## The table of first bytes, on the byte's value -/

section Table

variable {b : UInt8}

theorem leadOf_one (h : b.toNat < 0x80) : leadOf b = some (0, 0x80, 0xBF) := by
  simp [leadOf, UInt8.lt_iff_toNat_lt, h]

theorem leadOf_two (h1 : 0xC2 ≤ b.toNat) (h2 : b.toNat ≤ 0xDF) : leadOf b = some (1, 0x80, 0xBF) := by
  rw [leadOf, if_neg (by simp [UInt8.lt_iff_toNat_lt]; omega),
    if_pos (by simp [UInt8.le_iff_toNat_le]; omega)]

/-- A three-byte lead: the second byte is at least `0xA0` after `0xE0` (no overlong form) and
at most `0x9F` after `0xED` (no surrogate). -/
theorem leadOf_three (h1 : 0xE0 ≤ b.toNat) (h2 : b.toNat ≤ 0xEF) :
    leadOf b = some (2, if b.toNat = 0xE0 then 0xA0 else 0x80,
      if b.toNat = 0xED then 0x9F else 0xBF) := by
  unfold leadOf
  simp only [UInt8.lt_iff_toNat_lt, UInt8.le_iff_toNat_le, ← UInt8.toNat_inj]
  split_ifs <;> simp_all <;> omega

/-- A four-byte lead: the second byte is at least `0x90` after `0xF0` (no overlong form) and
at most `0x8F` after `0xF4` (nothing past `0x10FFFF`). -/
theorem leadOf_four (h1 : 0xF0 ≤ b.toNat) (h2 : b.toNat ≤ 0xF4) :
    leadOf b = some (3, if b.toNat = 0xF0 then 0x90 else 0x80,
      if b.toNat = 0xF4 then 0x8F else 0xBF) := by
  unfold leadOf
  simp only [UInt8.lt_iff_toNat_lt, UInt8.le_iff_toNat_le, ← UInt8.toNat_inj]
  split_ifs <;> simp_all <;> omega

theorem leadOf_none (h : (0x80 ≤ b.toNat ∧ b.toNat < 0xC2) ∨ 0xF4 < b.toNat) : leadOf b = none := by
  have hb := b.toNat_lt
  unfold leadOf
  simp only [UInt8.lt_iff_toNat_lt, UInt8.le_iff_toNat_le, ← UInt8.toNat_inj]
  split_ifs <;> simp_all <;> omega

end Table

/-! ## Continuation bytes -/

theorem tailMatch_le_length (k : Nat) (lo hi : UInt8) (bs : List UInt8) :
    tailMatch k lo hi bs ≤ bs.length := by
  induction bs generalizing k lo hi with
  | nil => cases k <;> simp [tailMatch]
  | cons x xs ih =>
    cases k with
    | zero => simp [tailMatch]
    | succ k =>
      simp only [tailMatch, List.length_cons]
      split_ifs
      · have := ih k 0x80 0xBF
        omega
      · omega

theorem tailMatch_succ_cons_eq {k : Nat} {lo hi x : UInt8} {xs : List UInt8} :
    tailMatch (k + 1) lo hi (x :: xs) = k + 1 ↔
      (lo.toNat ≤ x.toNat ∧ x.toNat ≤ hi.toNat) ∧ tailMatch k 0x80 0xBF xs = k := by
  simp only [tailMatch, UInt8.le_iff_toNat_le]
  split_ifs with h <;> simp [h]

/-! ## From a character to its bytes and back -/

theorem ofNat_eq_of_toNat {n : Nat} {b : UInt8} (h : n = b.toNat) : UInt8.ofNat n = b := by
  subst h
  exact UInt8.ofNat_toNat

/-- A code point outside the surrogates and below `0x110000` is a character's. -/
theorem toNat_ofNat_of_valid {n : Nat} (h : n < 0xD800 ∨ (0xDFFF < n ∧ n < 0x110000)) :
    (Char.ofNat n).val.toNat = n := by
  have := Char.toNat_ofNat n
  simp only [Char.toNat] at this
  rw [this, if_pos h]

section Encode

variable {b t1 t2 t3 : UInt8}

theorem utf8EncodeChar_one (hb : b.toNat < 0x80) :
    String.utf8EncodeChar (Char.ofNat (codePoint b [])) = [b] := by
  have hv : codePoint b [] = b.toNat := rfl
  have hc := toNat_ofNat_of_valid (n := codePoint b []) (by omega)
  simp only [String.utf8EncodeChar, hc]
  rw [if_pos (by omega)]
  simp only [List.cons.injEq, and_true]
  exact ofNat_eq_of_toNat hv

theorem utf8EncodeChar_two (hb1 : 0xC2 ≤ b.toNat) (hb2 : b.toNat ≤ 0xDF)
    (h1 : 0x80 ≤ t1.toNat ∧ t1.toNat ≤ 0xBF) :
    String.utf8EncodeChar (Char.ofNat (codePoint b [t1])) = [b, t1] := by
  have hv : codePoint b [t1] = 64 * (b.toNat % 32) + t1.toNat % 64 := rfl
  have hc := toNat_ofNat_of_valid (n := codePoint b [t1]) (by omega)
  simp only [String.utf8EncodeChar, hc]
  rw [if_neg (by omega), if_pos (by omega)]
  simp only [List.cons.injEq, and_true]
  exact ⟨ofNat_eq_of_toNat (by omega), ofNat_eq_of_toNat (by omega)⟩

theorem utf8EncodeChar_three (hb1 : 0xE0 ≤ b.toNat) (hb2 : b.toNat ≤ 0xEF)
    (h1 : (if b.toNat = 0xE0 then 0xA0 else 0x80) ≤ t1.toNat ∧
      t1.toNat ≤ (if b.toNat = 0xED then 0x9F else 0xBF))
    (h2 : 0x80 ≤ t2.toNat ∧ t2.toNat ≤ 0xBF) :
    String.utf8EncodeChar (Char.ofNat (codePoint b [t1, t2])) = [b, t1, t2] := by
  have hv : codePoint b [t1, t2] = 64 * (64 * (b.toNat % 16) + t1.toNat % 64) + t2.toNat % 64 := rfl
  have ht1 : 0x80 ≤ t1.toNat ∧ t1.toNat ≤ 0xBF ∧ (b.toNat ≠ 0xE0 ∨ 0xA0 ≤ t1.toNat) ∧
      (b.toNat ≠ 0xED ∨ t1.toNat ≤ 0x9F) := by
    split_ifs at h1 <;> omega
  have hc := toNat_ofNat_of_valid (n := codePoint b [t1, t2]) (by omega)
  simp only [String.utf8EncodeChar, hc]
  rw [if_neg (by omega), if_neg (by omega), if_pos (by omega)]
  simp only [List.cons.injEq, and_true]
  exact ⟨ofNat_eq_of_toNat (by omega), ofNat_eq_of_toNat (by omega), ofNat_eq_of_toNat (by omega)⟩

theorem utf8EncodeChar_four (hb1 : 0xF0 ≤ b.toNat) (hb2 : b.toNat ≤ 0xF4)
    (h1 : (if b.toNat = 0xF0 then 0x90 else 0x80) ≤ t1.toNat ∧
      t1.toNat ≤ (if b.toNat = 0xF4 then 0x8F else 0xBF))
    (h2 : 0x80 ≤ t2.toNat ∧ t2.toNat ≤ 0xBF) (h3 : 0x80 ≤ t3.toNat ∧ t3.toNat ≤ 0xBF) :
    String.utf8EncodeChar (Char.ofNat (codePoint b [t1, t2, t3])) = [b, t1, t2, t3] := by
  have hv : codePoint b [t1, t2, t3] =
      64 * (64 * (64 * (b.toNat % 8) + t1.toNat % 64) + t2.toNat % 64) + t3.toNat % 64 := rfl
  have ht1 : 0x80 ≤ t1.toNat ∧ t1.toNat ≤ 0xBF ∧ (b.toNat ≠ 0xF0 ∨ 0x90 ≤ t1.toNat) ∧
      (b.toNat ≠ 0xF4 ∨ t1.toNat ≤ 0x8F) := by
    split_ifs at h1 <;> omega
  have hc := toNat_ofNat_of_valid (n := codePoint b [t1, t2, t3]) (by omega)
  simp only [String.utf8EncodeChar, hc]
  rw [if_neg (by omega), if_neg (by omega), if_neg (by omega)]
  simp only [List.cons.injEq, and_true]
  exact ⟨ofNat_eq_of_toNat (by omega), ofNat_eq_of_toNat (by omega), ofNat_eq_of_toNat (by omega),
    ofNat_eq_of_toNat (by omega)⟩

end Encode

/-- Bytes the decoder accepts as one character are that character's encoding. -/
theorem utf8EncodeChar_codePoint {b lo hi : UInt8} {k : Nat} {bs : List UInt8}
    (hl : leadOf b = some (k, lo, hi)) (hm : tailMatch k lo hi bs = k) :
    String.utf8EncodeChar (Char.ofNat (codePoint b (bs.take k))) = b :: bs.take k := by
  have hb := b.toNat_lt
  have hlen : k ≤ bs.length := hm ▸ tailMatch_le_length k lo hi bs
  rcases (by omega : b.toNat < 0x80 ∨ (0xC2 ≤ b.toNat ∧ b.toNat ≤ 0xDF) ∨
      (0xE0 ≤ b.toNat ∧ b.toNat ≤ 0xEF) ∨ (0xF0 ≤ b.toNat ∧ b.toNat ≤ 0xF4) ∨
      ((0x80 ≤ b.toNat ∧ b.toNat < 0xC2) ∨ 0xF4 < b.toNat)) with h | h | h | h | h
  · rw [leadOf_one h] at hl
    cases hl
    exact utf8EncodeChar_one h
  · rw [leadOf_two h.1 h.2] at hl
    cases hl
    rcases bs with _ | ⟨x, xs⟩
    · simp at hlen
    obtain ⟨hx, -⟩ := tailMatch_succ_cons_eq.1 hm
    exact utf8EncodeChar_two h.1 h.2 hx
  · rw [leadOf_three h.1 h.2] at hl
    cases hl
    rcases bs with _ | ⟨x, _ | ⟨y, ys⟩⟩
    · simp at hlen
    · simp at hlen
    obtain ⟨hx, hrest⟩ := tailMatch_succ_cons_eq.1 hm
    obtain ⟨hy, -⟩ := tailMatch_succ_cons_eq.1 hrest
    refine utf8EncodeChar_three h.1 h.2 ?_ (by simpa using hy)
    split_ifs at hx ⊢ <;> simp_all
  · rw [leadOf_four h.1 h.2] at hl
    cases hl
    rcases bs with _ | ⟨x, _ | ⟨y, _ | ⟨z, zs⟩⟩⟩
    · simp at hlen
    · simp at hlen
    · simp at hlen
    obtain ⟨hx, hrest⟩ := tailMatch_succ_cons_eq.1 hm
    obtain ⟨hy, hrest⟩ := tailMatch_succ_cons_eq.1 hrest
    obtain ⟨hz, -⟩ := tailMatch_succ_cons_eq.1 hrest
    refine utf8EncodeChar_four h.1 h.2 ?_ (by simpa using hy) (by simpa using hz)
    split_ifs at hx ⊢ <;> simp_all
  · rw [leadOf_none h] at hl
    cases hl

/-! ## Decoding -/

theorem decodeFrom_cons_of_lead {pos k : Nat} {b lo hi : UInt8} {bs : List UInt8}
    (hl : leadOf b = some (k, lo, hi)) (hm : tailMatch k lo hi bs = k) :
    decodeFrom pos (b :: bs) =
      (decodeFrom (pos + 1 + k) (bs.drop k)).map (Char.ofNat (codePoint b (bs.take k)) :: ·) := by
  rw [decodeFrom]
  simp [hl, hm]

/-- Only the first `k` bytes decide whether `k` continuation bytes follow. -/
theorem tailMatch_append {k : Nat} {lo hi : UInt8} {t : List UInt8} (rest : List UInt8)
    (ht : t.length = k) : tailMatch k lo hi (t ++ rest) = tailMatch k lo hi t := by
  induction t generalizing k lo hi with
  | nil => subst ht; rfl
  | cons x xs ih =>
    cases k with
    | zero => simp at ht
    | succ k =>
      simp only [List.length_cons, Nat.add_right_cancel_iff] at ht
      simp only [List.cons_append, tailMatch, ih ht]

/-- The decoder reads a character's encoding back as the character, given the first byte's
entry of the table and the continuation bytes' ranges. -/
theorem decodeFrom_of_encoding {pos k : Nat} {c : Char} {b lo hi : UInt8} {t : List UInt8}
    (rest : List UInt8) (henc : String.utf8EncodeChar c = b :: t) (hl : leadOf b = some (k, lo, hi))
    (hk : t.length = k) (hm : tailMatch k lo hi t = k) (hcp : codePoint b t = c.toNat) :
    decodeFrom pos (String.utf8EncodeChar c ++ rest) = (decodeFrom (pos + c.utf8Size) rest).map (c :: ·) := by
  have hsize : c.utf8Size = k + 1 := by
    rw [← String.length_utf8EncodeChar, henc, List.length_cons, hk]
  rw [henc, List.cons_append, decodeFrom_cons_of_lead hl ((tailMatch_append rest hk).trans hm),
    List.take_left' hk, List.drop_left' hk, hcp, Char.ofNat_toNat, hsize, Nat.add_assoc,
    Nat.add_comm 1 k]

/-- A character's encoding reads back as the character. -/
theorem decodeFrom_utf8EncodeChar_append (pos : Nat) (c : Char) (rest : List UInt8) :
    decodeFrom pos (String.utf8EncodeChar c ++ rest) = (decodeFrom (pos + c.utf8Size) rest).map (c :: ·) := by
  have hvalid : c.val.toNat < 0xD800 ∨ (0xDFFF < c.val.toNat ∧ c.val.toNat < 0x110000) := c.valid
  have hc : c.toNat = c.val.toNat := rfl
  -- one case per size: the bytes, the first byte's entry, and the code point they spell
  rcases (by omega : c.val.toNat ≤ 0x7F ∨ (0x7F < c.val.toNat ∧ c.val.toNat ≤ 0x7FF) ∨
      (0x7FF < c.val.toNat ∧ c.val.toNat ≤ 0xFFFF) ∨ 0xFFFF < c.val.toNat) with h | h | h | h
  · have henc : String.utf8EncodeChar c = [UInt8.ofNat c.val.toNat] := by
      simp only [String.utf8EncodeChar]
      rw [if_pos h]
    have hb : (UInt8.ofNat c.val.toNat).toNat = c.val.toNat := by
      rw [UInt8.toNat_ofNat']
      omega
    exact decodeFrom_of_encoding rest henc (leadOf_one (by omega)) rfl rfl (hb.trans hc.symm)
  · have henc : String.utf8EncodeChar c =
        [UInt8.ofNat (c.val.toNat / 64 % 0x20 + 0xC0), UInt8.ofNat (c.val.toNat % 0x40 + 0x80)] := by
      simp only [String.utf8EncodeChar]
      rw [if_neg (by omega), if_pos h.2]
    refine decodeFrom_of_encoding rest henc (leadOf_two (by simp; omega) (by simp; omega)) rfl
      (tailMatch_succ_cons_eq.2 ⟨by simp; omega, rfl⟩) ?_
    simp [codePoint]
    omega
  · have henc : String.utf8EncodeChar c =
        [UInt8.ofNat (c.val.toNat / 4096 % 0x10 + 0xE0), UInt8.ofNat (c.val.toNat / 64 % 0x40 + 0x80),
          UInt8.ofNat (c.val.toNat % 0x40 + 0x80)] := by
      simp only [String.utf8EncodeChar]
      rw [if_neg (by omega), if_neg (by omega), if_pos h.2]
    refine decodeFrom_of_encoding rest henc (leadOf_three (by simp; omega) (by simp; omega)) rfl
      (tailMatch_succ_cons_eq.2 ⟨?_, tailMatch_succ_cons_eq.2 ⟨by simp; omega, rfl⟩⟩) ?_
    · simp only [UInt8.toNat_ofNat']
      split_ifs <;> simp <;> omega
    · simp [codePoint]
      omega
  · have henc : String.utf8EncodeChar c =
        [UInt8.ofNat (c.val.toNat / 262144 % 0x08 + 0xF0),
          UInt8.ofNat (c.val.toNat / 4096 % 0x40 + 0x80), UInt8.ofNat (c.val.toNat / 64 % 0x40 + 0x80),
          UInt8.ofNat (c.val.toNat % 0x40 + 0x80)] := by
      simp only [String.utf8EncodeChar]
      rw [if_neg (by omega), if_neg (by omega), if_neg (by omega)]
    refine decodeFrom_of_encoding rest henc (leadOf_four (by simp; omega) (by simp; omega)) rfl
      (tailMatch_succ_cons_eq.2 ⟨?_, tailMatch_succ_cons_eq.2 ⟨by simp; omega,
        tailMatch_succ_cons_eq.2 ⟨by simp; omega, rfl⟩⟩⟩) ?_
    · simp only [UInt8.toNat_ofNat']
      split_ifs <;> simp <;> omega
    · simp [codePoint]
      omega

theorem decodeFrom_flatMap (pos : Nat) (cs : List Char) :
    decodeFrom pos (cs.flatMap String.utf8EncodeChar) = .ok cs := by
  induction cs generalizing pos with
  | nil => simp [decodeFrom]
  | cons c cs ih =>
    rw [List.flatMap_cons, decodeFrom_utf8EncodeChar_append, ih]
    rfl

/-- What the decoder accepts is the encoding of what it gives back. -/
theorem eq_flatMap_of_decodeFrom {pos : Nat} {bytes : List UInt8} {cs : List Char}
    (h : decodeFrom pos bytes = .ok cs) : bytes = cs.flatMap String.utf8EncodeChar := by
  fun_induction decodeFrom pos bytes generalizing cs with
  | case1 => cases h; rfl
  | case2 => cases h
  | case3 pos b bs k lo hi hl j hk =>
    rename_i ih
    rcases hrest : decodeFrom (pos + 1 + k) (bs.drop k) with e | cs'
    · rw [hrest] at h
      cases h
    rw [hrest] at h
    cases h
    rw [List.flatMap_cons, utf8EncodeChar_codePoint hl hk, ← ih hrest, List.cons_append,
      List.take_append_drop]
  | case4 => cases h
  | case5 => cases h

/-- The decoder gives back `cs` exactly on the encoding of `cs`. -/
theorem decode_eq_ok_iff {bytes : List UInt8} {cs : List Char} :
    decode bytes = .ok cs ↔ bytes = cs.flatMap String.utf8EncodeChar := by
  constructor
  · exact eq_flatMap_of_decodeFrom
  · rintro rfl
    exact decodeFrom_flatMap 0 cs

/-- Core's valid UTF-8 is being the encoding of some characters. -/
theorem isValidUTF8_toByteArray_iff (bytes : List UInt8) :
    bytes.toByteArray.IsValidUTF8 ↔ ∃ cs : List Char, bytes = cs.flatMap String.utf8EncodeChar := by
  constructor
  · rintro ⟨cs, hcs⟩
    refine ⟨cs, ?_⟩
    have h := congrArg (fun b : ByteArray => b.data.toList) hcs
    simpa [List.utf8Encode, List.toList_data_toByteArray] using h
  · rintro ⟨cs, rfl⟩
    exact ⟨cs, rfl⟩

/-- The decoder succeeds exactly on valid UTF-8. -/
theorem decode_isOk_iff (bytes : List UInt8) :
    (∃ cs, decode bytes = .ok cs) ↔ bytes.toByteArray.IsValidUTF8 := by
  simp only [decode_eq_ok_iff, isValidUTF8_toByteArray_iff]

end StackMachine.Text
