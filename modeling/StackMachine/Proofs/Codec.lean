import Mathlib
import StackMachine.Isa.Decode
/-!
# The instruction codec

Decoding and encoding are inverse on every instruction. `decodeAt_eq_ok_iff`: the decoder
reads instruction `i` at an offset exactly when the bytes there start with `i`'s encoding, so
an encoding reads back whatever stands before and after it, and whatever the decoder accepts
is an encoding. `decodeAt_eq_error_iff`: when it fails, the error names the first of its
checks that fails, in the order byte present, opcode id, mode bits, operand present,
register id. `decodeAt_encode_bijection` puts the three together.

`listFrom_append_encode`: the encodings of a list of instructions, one after another, list
back as those instructions, each at the sum of the sizes before it.
-/

namespace StackMachine

/-! ## Little-endian words -/

namespace LittleEndian

theorem value_bytes (w n : Nat) : value (bytes w n) = n % 256 ^ w := by
  induction w generalizing n with
  | zero => simp [bytes, value, Nat.mod_one]
  | succ w ih =>
    have h : (n % 256).toUInt8.toNat = n % 256 := by simp
    rw [bytes, value, ih, h, pow_succ', Nat.mod_mul]

theorem value_lt (l : List UInt8) : value l < 256 ^ l.length := by
  induction l with
  | nil => simp [value]
  | cons b bs ih =>
    have hb := b.toNat_lt
    rw [value, List.length_cons, pow_succ']
    omega

theorem bytes_value (l : List UInt8) : bytes l.length (value l) = l := by
  induction l with
  | nil => rfl
  | cons b bs ih =>
    have hb := b.toNat_lt
    have hlow : (b.toNat + 256 * value bs) % 256 = b.toNat := by omega
    have hhigh : (b.toNat + 256 * value bs) / 256 = value bs := by omega
    rw [List.length_cons, bytes, value, hlow, hhigh, ih]
    simp

end LittleEndian

theorem Int32.toUInt32_toNat_ofNat (w : Nat) : (Int32.ofNat w).toUInt32.toNat = w % 2 ^ 32 := by
  simp

theorem Int32.ofNat_toUInt32_toNat (v : Int32) : Int32.ofNat v.toUInt32.toNat = v := by
  rw [← UInt32.toInt32_ofNat', UInt32.ofNat_toNat, Int32.toInt32_toUInt32]

/-! ## The id and bit tables -/

theorem Opcode.id_of_ofId? {n : Nat} {op : Opcode} (h : Opcode.ofId? n = some op) : op.id = n := by
  have hn : n < 18 := by
    by_contra hn
    have hnone : Opcode.all[n]? = none := List.getElem?_eq_none (by simp [Opcode.all]; omega)
    simp [Opcode.ofId?, hnone] at h
  have table : ∀ k : Fin 18, (Opcode.ofId? k).map Opcode.id = some k.val := by decide
  simpa [h] using table ⟨n, hn⟩

theorem Opcode.ofId?_eq_none_iff {n : Nat} : Opcode.ofId? n = none ↔ 18 ≤ n := by
  simp [Opcode.ofId?, Opcode.all]

theorem Register.id_of_ofId? {n : Nat} {r : Register} (h : Register.ofId? n = some r) : r.id = n := by
  have hn : n < 4 := by
    by_contra hn
    simp [Register.ofId?_eq_none (by omega : 4 ≤ n)] at h
  have table : ∀ k : Fin 4, (Register.ofId? k).map Register.id = some k.val := by decide
  simpa [h] using table ⟨n, hn⟩

theorem Register.ofId?_eq_none_iff {n : Nat} : Register.ofId? n = none ↔ 4 ≤ n := by
  simp [Register.ofId?, Register.all]

theorem Mode.bits_lt (m : Mode) : m.bits < 4 := by
  cases m <;> decide

/-- The bits of the mode that mode bits stand for are those bits. -/
theorem bits_of_modeOfBits? {c : OperandClass} {bits : Nat} {m : Mode}
    (h : c.modeOfBits? bits = some m) (hb : bits < 4) : m.bits = bits := by
  interval_cases bits <;> cases c <;>
    simp_all [OperandClass.modeOfBits?, OperandClass.admits] <;> (obtain ⟨-, rfl⟩ := h) <;> rfl

/-- Below 4, mode bits stand for the one mode with those bits that the class admits. -/
theorem modeOfBits?_eq_some_iff {c : OperandClass} {bits : Nat} {m : Mode} (hb : bits < 4) :
    c.modeOfBits? bits = some m ↔ c.admits m = true ∧ m.bits = bits := by
  constructor
  · intro h
    exact ⟨admits_of_modeOfBits? h, bits_of_modeOfBits? h hb⟩
  · rintro ⟨h, rfl⟩
    exact modeOfBits?_bits c m h

theorem modeOfBits?_eq_none_iff {c : OperandClass} {bits : Nat} (hb : bits < 4) :
    c.modeOfBits? bits = none ↔ ∀ m : Mode, m.bits = bits → c.admits m = false := by
  constructor
  · intro h m hm
    by_contra hadm
    rw [← hm, modeOfBits?_bits c m (by simpa using hadm)] at h
    cases h
  · intro h
    cases hc : c.modeOfBits? bits with
    | none => rfl
    | some m =>
      obtain ⟨hadm, hm⟩ := (modeOfBits?_eq_some_iff hb).1 hc
      simp [h m hm] at hadm

theorem opcodeByte_toNat (i : Instruction) :
    i.opcodeByte.toNat = i.opcode.id + 64 * i.operand.mode.bits := by
  have := i.opcode.id_lt
  have := i.operand.mode.bits_lt
  simp only [Instruction.opcodeByte, Nat.toUInt8, UInt8.toNat_ofNat']
  omega

theorem opcodeByte_mod (i : Instruction) : i.opcodeByte.toNat % 64 = i.opcode.id := by
  have := i.opcode.id_lt
  rw [opcodeByte_toNat]
  omega

theorem opcodeByte_div (i : Instruction) : i.opcodeByte.toNat / 64 = i.operand.mode.bits := by
  have := i.opcode.id_lt
  rw [opcodeByte_toNat]
  omega

/-! ## Instructions from an opcode and an operand -/

@[simp] theorem Source.operand_ofOperand (o : Operand) (h : OperandClass.source.admits o.mode = true) :
    (Source.ofOperand o h).operand = o := by
  cases o <;> first | rfl | simp [Operand.mode, OperandClass.admits] at h

@[simp] theorem Sink.operand_ofOperand (o : Operand) (h : OperandClass.sink.admits o.mode = true) :
    (Sink.ofOperand o h).operand = o := by
  cases o <;> first | rfl | simp [Operand.mode, OperandClass.admits] at h

theorem Operand.eq_imm_target (o : Operand) (h : OperandClass.target.admits o.mode = true) :
    o = .imm (o.target h) := by
  cases o <;> first | rfl | simp [Operand.mode, OperandClass.admits] at h

theorem Operand.eq_none_of_nullary (o : Operand) (h : OperandClass.nullary.admits o.mode = true) :
    o = .none := by
  cases o <;> first | rfl | simp [Operand.mode, OperandClass.admits] at h

@[simp] theorem Instruction.opcode_make (op : Opcode) (o : Operand)
    (h : op.operandClass.admits o.mode = true) : (Instruction.make op o h).opcode = op := by
  cases op <;> rfl

@[simp] theorem Instruction.operand_make (op : Opcode) (o : Operand)
    (h : op.operandClass.admits o.mode = true) : (Instruction.make op o h).operand = o := by
  cases op with
  | push => exact Source.operand_ofOperand o h
  | pop => exact Sink.operand_ofOperand o h
  | jump | branch _ | call => exact (Operand.eq_imm_target o h).symm
  | halt | arith _ | print | read | ret => exact (Operand.eq_none_of_nullary o h).symm

/-! ## Bytes from an offset on -/

theorem prefix_drop_cons_iff {α : Type} {b : α} {l L : List α} {pos : Nat} :
    (b :: l) <+: L.drop pos ↔ L[pos]? = some b ∧ l <+: L.drop (pos + 1) := by
  constructor
  · intro h
    have hlt : pos < L.length := by
      have := h.length_le
      simp at this
      omega
    rw [List.drop_eq_getElem_cons hlt, List.cons_prefix_cons] at h
    exact ⟨by rw [List.getElem?_eq_getElem hlt, h.1], h.2⟩
  · rintro ⟨hb, hl⟩
    obtain ⟨hlt, rfl⟩ := List.getElem?_eq_some_iff.1 hb
    rw [List.drop_eq_getElem_cons hlt, List.cons_prefix_cons]
    exact ⟨rfl, hl⟩

theorem prefix_drop_four_iff {α : Type} {b0 b1 b2 b3 : α} {L : List α} {pos : Nat} :
    [b0, b1, b2, b3] <+: L.drop pos ↔
      L[pos]? = some b0 ∧ L[pos + 1]? = some b1 ∧ L[pos + 2]? = some b2 ∧ L[pos + 3]? = some b3 := by
  simp only [prefix_drop_cons_iff, List.nil_prefix, and_true, Nat.add_assoc]

/-- The little-endian word in the four bytes from `pos`, as far as they go. -/
def wordAt (code : Array UInt8) (pos : Nat) : Nat :=
  LittleEndian.value ((code.toList.drop pos).take 4)

theorem four_bytes_of_le {code : Array UInt8} {pos : Nat} (h : pos + 4 ≤ code.size) :
    ∃ b0 b1 b2 b3, code[pos]? = some b0 ∧ code[pos + 1]? = some b1 ∧ code[pos + 2]? = some b2 ∧
      code[pos + 3]? = some b3 ∧ wordAt code pos = LittleEndian.value [b0, b1, b2, b3] := by
  have hget (j : Nat) (hj : j < 4) : code[pos + j]? = some code[pos + j] :=
    Array.getElem?_eq_getElem (by omega)
  refine ⟨_, _, _, _, hget 0 (by omega), hget 1 (by omega), hget 2 (by omega), hget 3 (by omega), ?_⟩
  have hpre : [code[pos + 0], code[pos + 1], code[pos + 2], code[pos + 3]] <+: code.toList.drop pos := by
    rw [prefix_drop_four_iff]
    simp only [Array.getElem?_toList]
    exact ⟨hget 0 (by omega), hget 1 (by omega), hget 2 (by omega), hget 3 (by omega)⟩
  rw [wordAt, List.prefix_iff_eq_take.1 hpre]
  rfl

/-- The four bytes of a word that fits them stand at `pos`. -/
theorem word_at_iff (code : Array UInt8) (pos w : Nat) (hw : w < 256 ^ 4) :
    LittleEndian.bytes 4 w <+: code.toList.drop pos ↔
      ∃ b0 b1 b2 b3, code[pos]? = some b0 ∧ code[pos + 1]? = some b1 ∧ code[pos + 2]? = some b2 ∧
        code[pos + 3]? = some b3 ∧ LittleEndian.value [b0, b1, b2, b3] = w := by
  constructor
  · intro h
    generalize hl : LittleEndian.bytes 4 w = l at h
    have hlen : l.length = 4 := by rw [← hl, LittleEndian.length_bytes]
    match l, hlen with
    | [b0, b1, b2, b3], _ =>
      obtain ⟨h0, h1, h2, h3⟩ := prefix_drop_four_iff.1 h
      refine ⟨b0, b1, b2, b3, by simpa using h0, by simpa using h1, by simpa using h2,
        by simpa using h3, ?_⟩
      rw [← hl, LittleEndian.value_bytes, Nat.mod_eq_of_lt hw]
  · rintro ⟨b0, b1, b2, b3, h0, h1, h2, h3, rfl⟩
    have := LittleEndian.bytes_value [b0, b1, b2, b3]
    simp only [List.length_cons, List.length_nil] at this
    rw [this, prefix_drop_four_iff]
    simp [h0, h1, h2, h3]

/-! ## Reading an operand -/

/-- An operand reads back from exactly the bytes it is written as. -/
theorem readOperand_eq_ok_iff {code : Array UInt8} {pos : Nat} {m : Mode}
    (r : {o : Operand // o.mode = m}) :
    readOperand code pos m = .ok r ↔ Instruction.operandBytes r.1 <+: code.toList.drop pos := by
  obtain ⟨o, rfl⟩ := r
  cases o with
  | none => simp [readOperand, Operand.mode, Instruction.operandBytes]
  | imm v | memImm v =>
    have hw : v.toUInt32.toNat < 256 ^ 4 := v.toUInt32.toNat_lt
    rw [Instruction.operandBytes, LittleEndian.word32, word_at_iff _ _ _ hw]
    constructor
    · intro h
      simp only [readOperand, Operand.mode] at h
      split at h
      · rename_i b0 b1 b2 b3 h0 h1 h2 h3
        have hv : Int32.ofNat (LittleEndian.value [b0, b1, b2, b3]) = v := by
          simpa [Subtype.ext_iff] using h
        have hlt := LittleEndian.value_lt [b0, b1, b2, b3]
        refine ⟨b0, b1, b2, b3, h0, h1, h2, h3, ?_⟩
        rw [← hv, Int32.toUInt32_toNat_ofNat, Nat.mod_eq_of_lt (by simpa using hlt)]
      · cases h
    · rintro ⟨b0, b1, b2, b3, h0, h1, h2, h3, hw⟩
      simp only [readOperand, Operand.mode, h0, h1, h2, h3, hw, Int32.ofNat_toUInt32_toNat]
  | reg r | memReg r =>
    have hw : r.id < 256 ^ 4 := by have := r.id_lt; omega
    rw [Instruction.operandBytes, word_at_iff _ _ _ hw]
    constructor
    · intro h
      simp only [readOperand, Operand.mode] at h
      split at h
      · rename_i b0 b1 b2 b3 h0 h1 h2 h3
        refine ⟨b0, b1, b2, b3, h0, h1, h2, h3, ?_⟩
        split at h
        · rename_i r' hr'
          have hr : r' = r := by simpa [Subtype.ext_iff] using h
          rw [← hr, Register.id_of_ofId? hr']
        · cases h
      · cases h
    · rintro ⟨b0, b1, b2, b3, h0, h1, h2, h3, hw⟩
      simp only [readOperand, Operand.mode, h0, h1, h2, h3, hw, Register.ofId?_id]

/-- Reading an operand fails when its four bytes are not all there, or when a register
operand holds no register's id. -/
theorem readOperand_eq_error_iff {code : Array UInt8} {pos : Nat} {m : Mode} {e : DecodeError} :
    readOperand code pos m = .error e ↔ m ≠ .none ∧
      (code.size < pos + 4 ∧ e = .truncated pos ∨
        pos + 4 ≤ code.size ∧ (m = .reg ∨ m = .memReg) ∧ 4 ≤ wordAt code pos ∧
          e = .badRegister (wordAt code pos)) := by
  by_cases hsize : pos + 4 ≤ code.size
  · obtain ⟨b0, b1, b2, b3, h0, h1, h2, h3, hw⟩ := four_bytes_of_le hsize
    rw [hw]
    cases m with
    | none | imm | memImm => simp [readOperand, h0, h1, h2, h3, hsize]
    | reg | memReg =>
      cases hr : Register.ofId? (LittleEndian.value [b0, b1, b2, b3]) with
      | none =>
        simp [readOperand, h0, h1, h2, h3, hr, hsize, Register.ofId?_eq_none_iff.1 hr, eq_comm]
      | some r =>
        have hlt : LittleEndian.value [b0, b1, b2, b3] < 4 := by
          rw [← Register.id_of_ofId? hr]
          exact r.id_lt
        simp [readOperand, h0, h1, h2, h3, hr, hsize, Nat.not_le.2 hlt]
  · have h3 : code[pos + 3]? = none := Array.getElem?_eq_none (by omega)
    cases m with
    | none => simp [readOperand]
    | imm | memImm | reg | memReg =>
      simp only [readOperand]
      split
      · rename_i h3'
        simp [h3] at h3'
      · simp [Nat.lt_of_not_le hsize, eq_comm]

/-! ## Decoding -/

/-- Once the first byte gives an opcode and a mode, decoding is reading the operand. -/
theorem decodeAt_of_mode {code : Array UInt8} {pos : Nat} {byte : UInt8} {op : Opcode} {m : Mode}
    (hbyte : code[pos]? = some byte) (hid : op.id = byte.toNat % 64)
    (hm : op.operandClass.modeOfBits? (byte.toNat / 64) = some m) :
    decodeAt code pos = match readOperand code (pos + 1) m with
      | .error e => .error e
      | .ok ⟨o, ho⟩ => .ok (Instruction.make op o (ho ▸ admits_of_modeOfBits? hm)) := by
  unfold decodeAt
  simp only [hbyte, ← hid, Opcode.ofId?_id]
  split
  · rename_i hm'
    rw [hm] at hm'
    cases hm'
  · rename_i m' hm'
    rw [hm, Option.some.injEq] at hm'
    subst hm'
    rfl

/-- The decoder reads `i` at `pos` exactly when the bytes from `pos` on start with `i`'s
encoding. -/
theorem decodeAt_eq_ok_iff {code : Array UInt8} {pos : Nat} {i : Instruction} :
    decodeAt code pos = .ok i ↔ i.encode <+: code.toList.drop pos := by
  rw [Instruction.encode, prefix_drop_cons_iff, Array.getElem?_toList]
  constructor
  · intro h
    unfold decodeAt at h
    split at h
    · cases h
    · rename_i byte hbyte
      split at h
      · cases h
      · rename_i op hop
        split at h
        · cases h
        · rename_i m hm
          split at h
          · cases h
          · rename_i o ho hread
            obtain rfl := Except.ok.inj h
            have hbits := bits_of_modeOfBits? hm (by have := byte.toNat_lt; omega)
            refine ⟨?_, ?_⟩
            · rw [hbyte, Option.some.injEq, ← UInt8.toNat_inj, opcodeByte_toNat]
              simp only [Instruction.opcode_make, Instruction.operand_make, Opcode.id_of_ofId? hop,
                ho, hbits]
              omega
            · simpa using (readOperand_eq_ok_iff ⟨o, ho⟩).1 hread
  · rintro ⟨hbyte, hrest⟩
    have hread := (readOperand_eq_ok_iff (m := i.operand.mode) ⟨i.operand, rfl⟩).2 hrest
    have hm : i.opcode.operandClass.modeOfBits? (i.opcodeByte.toNat / 64) = some i.operand.mode := by
      rw [opcodeByte_div, modeOfBits?_bits _ _ i.admits]
    rw [decodeAt_of_mode hbyte (opcodeByte_mod i).symm hm, hread]
    exact congrArg Except.ok (Instruction.make_opcode_operand i)

/-- Why decoding at `pos` fails: the first of the decoder's checks that does not pass, each
case holding the checks before it. -/
inductive DecodeFailure (code : Array UInt8) (pos : Nat) : DecodeError → Prop
  /-- There is no byte at `pos`. -/
  | noByte : code.size ≤ pos → DecodeFailure code pos (.truncated pos)
  /-- The low six bits of the byte are no opcode's id. -/
  | unknownOpcode {byte : UInt8} : code[pos]? = some byte → 18 ≤ byte.toNat % 64 →
      DecodeFailure code pos (.unknownOpcode byte)
  /-- No mode with the top two bits is one the opcode's class admits. -/
  | invalidMode {byte : UInt8} {op : Opcode} : code[pos]? = some byte →
      op.id = byte.toNat % 64 →
      (∀ m : Mode, m.bits = byte.toNat / 64 → op.operandClass.admits m = false) →
      DecodeFailure code pos (.invalidMode byte)
  /-- The mode takes an operand, and its four bytes are not all there. -/
  | shortOperand {byte : UInt8} {op : Opcode} {m : Mode} : code[pos]? = some byte →
      op.id = byte.toNat % 64 → m.bits = byte.toNat / 64 → op.operandClass.admits m = true →
      m ≠ .none → code.size < pos + 5 → DecodeFailure code pos (.truncated (pos + 1))
  /-- The mode takes a register, and the operand word is no register's id. -/
  | badRegister {byte : UInt8} {op : Opcode} {m : Mode} : code[pos]? = some byte →
      op.id = byte.toNat % 64 → m.bits = byte.toNat / 64 → op.operandClass.admits m = true →
      (m = .reg ∨ m = .memReg) → pos + 5 ≤ code.size → 4 ≤ wordAt code (pos + 1) →
      DecodeFailure code pos (.badRegister (wordAt code (pos + 1)))

theorem decodeAt_eq_error_iff {code : Array UInt8} {pos : Nat} {e : DecodeError} :
    decodeAt code pos = .error e ↔ DecodeFailure code pos e := by
  constructor
  · intro h
    unfold decodeAt at h
    split at h
    · rename_i hnone
      cases h
      exact .noByte (Array.getElem?_eq_none_iff.1 hnone)
    · rename_i byte hbyte
      have hb : byte.toNat / 64 < 4 := by have := byte.toNat_lt; omega
      split at h
      · rename_i hop
        cases h
        exact .unknownOpcode hbyte (Opcode.ofId?_eq_none_iff.1 hop)
      · rename_i op hop
        split at h
        · rename_i hm
          cases h
          exact .invalidMode hbyte (Opcode.id_of_ofId? hop) ((modeOfBits?_eq_none_iff hb).1 hm)
        · rename_i m hm
          obtain ⟨hadm, hbits⟩ := (modeOfBits?_eq_some_iff hb).1 hm
          split at h
          · rename_i e' hread
            cases h
            obtain ⟨hne, ⟨hshort, rfl⟩ | ⟨hlong, hreg, hw, rfl⟩⟩ := readOperand_eq_error_iff.1 hread
            · exact .shortOperand hbyte (Opcode.id_of_ofId? hop) hbits hadm hne (by omega)
            · exact .badRegister hbyte (Opcode.id_of_ofId? hop) hbits hadm hreg (by omega) hw
          · cases h
  · intro h
    have hb (byte : UInt8) : byte.toNat / 64 < 4 := by have := byte.toNat_lt; omega
    cases h with
    | noByte hsize => simp [decodeAt, Array.getElem?_eq_none hsize]
    | unknownOpcode hbyte hid => simp [decodeAt, hbyte, Opcode.ofId?_eq_none_iff.2 hid]
    | @invalidMode byte op hbyte hid hmodes =>
      have hnone := (modeOfBits?_eq_none_iff (c := op.operandClass) (hb byte)).2 hmodes
      unfold decodeAt
      simp only [hbyte, ← hid, Opcode.ofId?_id]
      split
      · rfl
      · rename_i m hm
        rw [hnone] at hm
        cases hm
    | @shortOperand byte op m hbyte hid hbits hadm hne hshort =>
      have hread : readOperand code (pos + 1) m = .error (.truncated (pos + 1)) :=
        readOperand_eq_error_iff.2 ⟨hne, .inl ⟨by omega, rfl⟩⟩
      rw [decodeAt_of_mode hbyte hid ((modeOfBits?_eq_some_iff (hb byte)).2 ⟨hadm, hbits⟩), hread]
    | @badRegister byte op m hbyte hid hbits hadm hreg hlong hw =>
      have hne : m ≠ .none := by rcases hreg with rfl | rfl <;> decide
      have hread : readOperand code (pos + 1) m = .error (.badRegister (wordAt code (pos + 1))) :=
        readOperand_eq_error_iff.2 ⟨hne, .inr ⟨by omega, hreg, hw, rfl⟩⟩
      rw [decodeAt_of_mode hbyte hid ((modeOfBits?_eq_some_iff (hb byte)).2 ⟨hadm, hbits⟩), hread]

/-- An instruction decoded at `pos` lies wholly inside the code. -/
theorem decodeAt_fits {code : Array UInt8} {pos : Nat} {i : Instruction}
    (h : decodeAt code pos = .ok i) : pos + i.size ≤ code.size := by
  have hlen := (decodeAt_eq_ok_iff.1 h).length_le
  simp only [Instruction.length_encode, List.length_drop, Array.length_toList] at hlen
  have hpos := i.size_pos
  omega

/-- The codec in one statement. An instruction's encoding takes one byte, and four more when
it has an operand, and reads back as the instruction whatever surrounds it; the decoder
accepts exactly the bytes that start with an encoding; and its failures are exactly the
first failing check. -/
theorem decodeAt_encode_bijection :
    (∀ (i : Instruction) (pre post : List UInt8),
      i.encode.length = (if i.operand = .none then 1 else 5) ∧
        decodeAt (pre ++ i.encode ++ post).toArray pre.length = .ok i) ∧
    (∀ (code : Array UInt8) (pos : Nat) (i : Instruction),
      decodeAt code pos = .ok i ↔
        pos + i.size ≤ code.size ∧ (code.toList.drop pos).take i.size = i.encode) ∧
    (∀ (code : Array UInt8) (pos : Nat) (e : DecodeError),
      decodeAt code pos = .error e ↔ DecodeFailure code pos e) := by
  refine ⟨fun i pre post => ⟨?_, ?_⟩, fun code pos i => ?_, fun _ _ _ => decodeAt_eq_error_iff⟩
  · rw [Instruction.length_encode, Instruction.size]
  · rw [decodeAt_eq_ok_iff, List.toList_toArray, List.append_assoc, List.drop_left]
    exact List.prefix_append _ _
  · rw [decodeAt_eq_ok_iff, List.prefix_iff_eq_take, Instruction.length_encode, eq_comm]
    constructor
    · intro h
      have hlen := congrArg List.length h
      have hpos := i.size_pos
      simp only [List.length_take, List.length_drop, Instruction.length_encode,
        Array.length_toList] at hlen
      exact ⟨by omega, h⟩
    · exact fun h => h.2

/-! ## Listings of encoded code -/

/-- Instructions placed one after another from offset `pos`, each with its offset. -/
def Instruction.layout : Nat → List Instruction → List (Nat × Instruction)
  | _, [] => []
  | pos, i :: is => (pos, i) :: layout (pos + i.size) is

/-- The encodings of instructions, after any bytes, list back as the instructions laid out
from where they start. -/
theorem listFrom_append_encode (pre : List UInt8) (is : List Instruction) :
    listFrom (pre ++ is.flatMap Instruction.encode).toArray pre.length =
      .ok (Instruction.layout pre.length is) := by
  induction is generalizing pre with
  | nil => simp [listFrom, Instruction.layout]
  | cons i is ih =>
    have hdec : decodeAt (pre ++ (i.encode ++ is.flatMap Instruction.encode)).toArray pre.length =
        .ok i := by
      rw [decodeAt_eq_ok_iff, List.toList_toArray, List.drop_left]
      exact List.prefix_append _ _
    have hpos := i.size_pos
    have hnext := ih (pre ++ i.encode)
    simp only [List.length_append, Instruction.length_encode, List.append_assoc] at hnext
    rw [List.flatMap_cons, listFrom, if_pos (by simp; omega), hdec]
    simp only [hnext]
    rfl

theorem listing_flatMap_encode (is : List Instruction) :
    listing (is.flatMap Instruction.encode).toArray = .ok (Instruction.layout 0 is) :=
  listFrom_append_encode [] is

end StackMachine
