import Mathlib
import StackMachine.Assembly.OperandSyntax
/-!
# The words of a line

The assembler recognises words by testing characters and looking names up in tables. This
module describes each kind of word as a property of its characters instead: `IntLiteral`
(a sign, then digits, with the value in 32 bits), `RegisterName` and `Mnemonic` (a name in
any ASCII case), `Identifier` and `LabelName` (an identifier that names no register). Each
reader is shown to accept exactly its kind of word, and `classify_eq_ok_iff` puts them
together: a word denotes `arg` exactly when it is spelled as `arg.SpelledBy` says.
-/

namespace StackMachine

open Text

/-! ## Numerals -/

/-- `cs` is a decimal numeral of `v`: an optional `+` or `-`, then digits whose value, with
the sign, is `v`. -/
def IntLiteral (cs : List Char) (v : Int32) : Prop :=
  ∃ sign ds, cs = sign ++ ds ∧ ds ≠ [] ∧ (∀ d ∈ ds, d.isDigit = true) ∧
    (((sign = [] ∨ sign = ['+']) ∧ (Nat.ofDigitChars 10 ds 0 : Int) = v.toInt) ∨
      (sign = ['-'] ∧ -(Nat.ofDigitChars 10 ds 0 : Int) = v.toInt))

namespace Text

theorem digitsValue?_eq_some_iff {ds : List Char} {n : Nat} :
    digitsValue? ds = some n ↔
      ds ≠ [] ∧ (∀ d ∈ ds, d.isDigit = true) ∧ Nat.ofDigitChars 10 ds 0 = n := by
  unfold digitsValue?
  rw [← Nat.ofDigitChars_eq_foldl]
  by_cases hne : ds = []
  · simp [hne]
  · by_cases hall : ds.all Char.isDigit = true
    · simp_all
    · simp_all

theorem parse_unsigned {ds : List Char} {v : Int32} :
    ((digitsValue? ds).bind fun n => if n ≤ 2147483647 then some (Int32.ofNat n) else none) = some v ↔
      ds ≠ [] ∧ (∀ d ∈ ds, d.isDigit = true) ∧ (Nat.ofDigitChars 10 ds 0 : Int) = v.toInt := by
  constructor
  · intro h
    obtain ⟨n, hn, hv⟩ := Option.bind_eq_some_iff.1 h
    obtain ⟨hne, hdig, rfl⟩ := digitsValue?_eq_some_iff.1 hn
    split_ifs at hv with hle
    cases hv
    exact ⟨hne, hdig, (Int32.toInt_ofNat_of_lt (by omega)).symm⟩
  · rintro ⟨hne, hdig, hval⟩
    have hlt := v.toInt_lt
    rw [digitsValue?_eq_some_iff.2 ⟨hne, hdig, rfl⟩, Option.bind_some, if_pos (by omega),
      ← Int32.ofInt_eq_ofNat, hval, Int32.ofInt_toInt]

theorem parse_negative {ds : List Char} {v : Int32} :
    ((digitsValue? ds).bind fun n =>
        if n ≤ 2147483648 then some (Int32.ofInt (-(n : Int))) else none) = some v ↔
      ds ≠ [] ∧ (∀ d ∈ ds, d.isDigit = true) ∧ -(Nat.ofDigitChars 10 ds 0 : Int) = v.toInt := by
  constructor
  · intro h
    obtain ⟨n, hn, hv⟩ := Option.bind_eq_some_iff.1 h
    obtain ⟨hne, hdig, rfl⟩ := digitsValue?_eq_some_iff.1 hn
    split_ifs at hv with hle
    cases hv
    exact ⟨hne, hdig, (Int32.toInt_ofInt_of_le (by omega) (by omega)).symm⟩
  · rintro ⟨hne, hdig, hval⟩
    have hlo := v.le_toInt
    rw [digitsValue?_eq_some_iff.2 ⟨hne, hdig, rfl⟩, Option.bind_some, if_pos (by omega), hval,
      Int32.ofInt_toInt]

/-- The parser reads exactly the numerals, each as its value. -/
theorem parseInt32?_eq_some_iff {cs : List Char} {v : Int32} :
    parseInt32? cs = some v ↔ IntLiteral cs v := by
  constructor
  · intro h
    rcases cs with _ | ⟨c, ds⟩
    · simp [parseInt32?, digitsValue?] at h
    by_cases hm : c = '-'
    · subst hm
      obtain ⟨hne, hdig, hval⟩ := parse_negative.1 h
      exact ⟨['-'], ds, rfl, hne, hdig, .inr ⟨rfl, hval⟩⟩
    by_cases hp : c = '+'
    · subst hp
      obtain ⟨hne, hdig, hval⟩ := parse_unsigned.1 h
      exact ⟨['+'], ds, rfl, hne, hdig, .inl ⟨.inr rfl, hval⟩⟩
    rw [parseInt32?.eq_3 _ (by simp [hm]) (by simp [hp])] at h
    obtain ⟨hne, hdig, hval⟩ := parse_unsigned.1 h
    exact ⟨[], c :: ds, rfl, hne, hdig, .inl ⟨.inl rfl, hval⟩⟩
  · rintro ⟨sign, ds, rfl, hne, hdig, ⟨rfl | rfl, hval⟩ | ⟨rfl, hval⟩⟩
    · -- without a sign the numeral starts with a digit, which the last case reads
      obtain ⟨d, ds', rfl⟩ := List.exists_cons_of_ne_nil hne
      have hd := hdig d List.mem_cons_self
      have hm : d ≠ '-' := by rintro rfl; revert hd; decide
      have hp : d ≠ '+' := by rintro rfl; revert hd; decide
      rw [List.nil_append, parseInt32?.eq_3 _ (by simp [hm]) (by simp [hp])]
      exact parse_unsigned.2 ⟨hne, hdig, hval⟩
    · exact parse_unsigned.2 ⟨hne, hdig, hval⟩
    · exact parse_negative.2 ⟨hne, hdig, hval⟩

theorem looksNumeric_of_intLiteral {cs : List Char} {v : Int32} (h : IntLiteral cs v) :
    looksNumeric cs = true := by
  obtain ⟨sign, ds, rfl, hne, hdig, ⟨rfl | rfl, -⟩ | ⟨rfl, -⟩⟩ := h <;>
    obtain ⟨d, ds', rfl⟩ := List.exists_cons_of_ne_nil hne <;>
    simp [looksNumeric, hdig d List.mem_cons_self]

end Text

/-! ## Names, ASCII case ignored -/

/-- `cs` names register `r`, ASCII case ignored. -/
def RegisterName (cs : List Char) (r : Register) : Prop := cs.map Char.toLower = r.name.toList

/-- `cs` is the mnemonic of `op`, ASCII case ignored. -/
def Mnemonic (cs : List Char) (op : Opcode) : Prop := cs.map Char.toLower = op.mnemonic.toList

instance (cs : List Char) (r : Register) : Decidable (RegisterName cs r) :=
  inferInstanceAs (Decidable (_ = _))

instance (cs : List Char) (op : Opcode) : Decidable (Mnemonic cs op) :=
  inferInstanceAs (Decidable (_ = _))

theorem Text.sameIgnoringCase_congr_right {a b b' : String}
    (h : b.toList.map Char.toLower = b'.toList.map Char.toLower) :
    sameIgnoringCase a b = sameIgnoringCase a b' := by
  rw [sameIgnoringCase, sameIgnoringCase, h]

/-- Looking a word up in a table by a lower-case key, ASCII case ignored, finds the entry
whose key the word spells, when the key's own lookup finds that entry. -/
theorem find?_sameIgnoringCase_eq_some_iff {α : Type} {table : List α} {key : α → String}
    {a : α} {cs : List Char} (hlower : (key a).toList.map Char.toLower = (key a).toList)
    (hself : table.find? (fun x => sameIgnoringCase (key x) (key a)) = some a) :
    table.find? (fun x => sameIgnoringCase (key x) (String.ofList cs)) = some a ↔
      cs.map Char.toLower = (key a).toList := by
  constructor
  · intro h
    have hsame := List.find?_some h
    rw [sameIgnoringCase, String.toList_ofList, beq_iff_eq, hlower] at hsame
    exact hsame.symm
  · intro h
    have hfold : (String.ofList cs).toList.map Char.toLower = (key a).toList.map Char.toLower := by
      rw [String.toList_ofList, h, hlower]
    simp only [sameIgnoringCase_congr_right hfold]
    exact hself

theorem Register.name_toLower (r : Register) : r.name.toList.map Char.toLower = r.name.toList := by
  cases r <;> decide

theorem Register.ofName?_name (r : Register) : Register.ofName? r.name = some r := by
  cases r <;> decide

theorem Register.ofName?_eq_some_iff {cs : List Char} {r : Register} :
    Register.ofName? (String.ofList cs) = some r ↔ RegisterName cs r :=
  find?_sameIgnoringCase_eq_some_iff r.name_toLower r.ofName?_name

theorem Opcode.mnemonic_toLower (op : Opcode) :
    op.mnemonic.toList.map Char.toLower = op.mnemonic.toList := by
  rcases op with _ | _ | _ | ⟨_ | _ | _ | _⟩ | _ | _ | _ | ⟨_ | _ | _ | _ | _ | _⟩ | _ | _ <;>
    decide

theorem Opcode.ofMnemonic?_mnemonic (op : Opcode) : Opcode.ofMnemonic? op.mnemonic = some op := by
  rcases op with _ | _ | _ | ⟨_ | _ | _ | _⟩ | _ | _ | _ | ⟨_ | _ | _ | _ | _ | _⟩ | _ | _ <;>
    decide

theorem Opcode.ofMnemonic?_eq_some_iff {cs : List Char} {op : Opcode} :
    Opcode.ofMnemonic? (String.ofList cs) = some op ↔ Mnemonic cs op :=
  find?_sameIgnoringCase_eq_some_iff op.mnemonic_toLower op.ofMnemonic?_mnemonic

/-! ## Label names -/

/-- An identifier: an ASCII letter or `_`, then ASCII letters, digits and `_`. -/
def Identifier (cs : List Char) : Prop :=
  ∃ ch rest, cs = ch :: rest ∧ (ch.isAlpha = true ∨ ch = '_') ∧
    ∀ d ∈ rest, d.isAlphanum = true ∨ d = '_'

/-- A label name: an identifier that names no register. -/
def LabelName (cs : List Char) : Prop := Identifier cs ∧ ∀ r, ¬ RegisterName cs r

theorem isName_iff {cs : List Char} : isName cs = true ↔ Identifier cs := by
  cases cs with
  | nil => simp [isName, Identifier]
  | cons ch rest => simp [isName, Identifier, isNameChar]

/-- The label test of the assembler: an identifier that the register table does not know. -/
theorem labelName_iff {cs : List Char} :
    LabelName cs ↔ isName cs = true ∧ Register.ofName? (String.ofList cs) = none := by
  rw [LabelName, isName_iff, Option.eq_none_iff_forall_ne_some]
  simp only [ne_eq, Register.ofName?_eq_some_iff]

theorem Char.isDigit_of_isAlpha {ch : Char} (h : ch.isAlpha = true) : ch.isDigit = false := by
  simp [Char.isAlpha, Char.isUpper, Char.isLower, Char.isDigit, UInt32.le_iff_toNat_le] at h ⊢
  omega

theorem Char.isAlpha_of_toLower {ch : Char} (h : ch.toLower.isLower = true) : ch.isAlpha = true := by
  unfold Char.toLower at h
  split at h
  · rename_i hu
    simp only [Char.isAlpha, Char.isUpper, ge_iff_le, hu]
    simp
  · simp [Char.isAlpha, h]

/-- A word that lowers to lower-case letters is made of letters. -/
theorem isAlpha_of_map_toLower {cs ls : List Char} (h : cs.map Char.toLower = ls)
    (hls : ∀ d ∈ ls, d.isLower = true) : ∀ ch ∈ cs, ch.isAlpha = true := fun _ hch =>
  Char.isAlpha_of_toLower (hls _ (h ▸ List.mem_map_of_mem hch))

/-- A register's name, in any case, is made of letters. -/
theorem RegisterName.identifier {cs : List Char} {r : Register} (h : RegisterName cs r) :
    Identifier cs := by
  have halpha := isAlpha_of_map_toLower h (by cases r <;> simp [Register.name])
  rcases cs with _ | ⟨ch, rest⟩
  · cases r <;> simp [RegisterName, Register.name] at h
  · refine ⟨ch, rest, rfl, .inl (halpha ch List.mem_cons_self), fun d hd => .inl ?_⟩
    simp [Char.isAlphanum, halpha d (List.mem_cons_of_mem ch hd)]

theorem Text.looksNumeric_of_identifier {cs : List Char} (h : Identifier cs) :
    looksNumeric cs = false := by
  obtain ⟨ch, rest, rfl, hch, -⟩ := h
  rcases hch with hch | rfl
  · have hd := Char.isDigit_of_isAlpha hch
    have hm : ch ≠ '-' := by rintro rfl; revert hch; decide
    have hp : ch ≠ '+' := by rintro rfl; revert hch; decide
    simp [looksNumeric, hd, hm, hp]
  · simp [looksNumeric]

/-! ## What an operand word denotes -/

/-- The words that denote `arg`: a numeral of a number, a register's name in any ASCII case,
and a label's own name. -/
def Arg.SpelledBy : Arg → List Char → Prop
  | .int v, cs => IntLiteral cs v
  | .reg r, cs => RegisterName cs r
  | .label n, cs => LabelName cs ∧ n = String.ofList cs

theorem classify_eq_int_iff {w : Word} {v : Int32} :
    classify w = .ok (.int v) ↔ IntLiteral w.chars v := by
  constructor
  · intro h
    unfold classify at h
    split at h
    · split at h
      · rename_i v' hv
        cases h
        exact parseInt32?_eq_some_iff.1 hv
      · cases h
    · split at h
      · cases h
      · split at h <;> cases h
  · intro h
    rw [classify, if_pos (looksNumeric_of_intLiteral h), parseInt32?_eq_some_iff.2 h]

theorem classify_eq_reg_iff {w : Word} {r : Register} :
    classify w = .ok (.reg r) ↔ RegisterName w.chars r := by
  constructor
  · intro h
    unfold classify at h
    split at h
    · split at h <;> cases h
    · split at h
      · rename_i r' hr
        cases h
        exact Register.ofName?_eq_some_iff.1 hr
      · split at h <;> cases h
  · intro h
    have hnum : looksNumeric w.chars = false := looksNumeric_of_identifier h.identifier
    rw [classify, if_neg (by simp [hnum]), Word.text, Register.ofName?_eq_some_iff.2 h]

theorem classify_eq_label_iff {w : Word} {n : String} :
    classify w = .ok (.label n) ↔ LabelName w.chars ∧ n = w.text := by
  constructor
  · intro h
    unfold classify at h
    split at h
    · split at h <;> cases h
    · split at h
      · cases h
      · rename_i hr
        split at h
        · rename_i hname
          cases h
          refine ⟨⟨isName_iff.1 hname, fun r hreg => ?_⟩, rfl⟩
          rw [Word.text, Register.ofName?_eq_some_iff.2 hreg] at hr
          cases hr
        · cases h
  · rintro ⟨⟨hid, hnreg⟩, rfl⟩
    have hnone : Register.ofName? w.text = none := by
      rcases hr : Register.ofName? w.text with _ | r
      · rfl
      · exact absurd (Register.ofName?_eq_some_iff.1 hr) (hnreg r)
    rw [classify, if_neg (by simp [looksNumeric_of_identifier hid]), hnone, if_pos (isName_iff.2 hid)]

/-- A word denotes exactly what it spells: a numeral its number, a register name its
register (a register wins over a label), and any other identifier the label of that name. -/
theorem classify_eq_ok_iff {w : Word} {arg : Arg} : classify w = .ok arg ↔ arg.SpelledBy w.chars := by
  cases arg with
  | int v => exact classify_eq_int_iff
  | reg r => exact classify_eq_reg_iff
  | label n => exact classify_eq_label_iff

/-! ## Operand words are plain -/

/-- A character that an operand word may hold: an ASCII letter or digit, `_`, `+` or `-`. -/
def PlainChar (ch : Char) : Prop := ch.isAlphanum = true ∨ ch = '_' ∨ ch = '+' ∨ ch = '-'

theorem PlainChar.isBlank {ch : Char} (h : PlainChar ch) : isBlank ch = false := by
  rcases h with h | rfl | rfl | rfl
  · simp only [Char.isAlphanum, Char.isAlpha, Char.isUpper, Char.isLower, Char.isDigit,
      Bool.or_eq_true, Bool.and_eq_true, decide_eq_true_eq, UInt32.le_iff_toNat_le] at h
    simp only [Text.isBlank, Bool.or_eq_false_iff, Bool.and_eq_false_iff, decide_eq_false_iff_not,
      beq_eq_false_iff_ne]
    have hval : ch.toNat = ch.val.toNat := rfl
    have : 'A'.val.toNat = 65 := rfl
    have : 'Z'.val.toNat = 90 := rfl
    have : 'a'.val.toNat = 97 := rfl
    have : 'z'.val.toNat = 122 := rfl
    have : '0'.val.toNat = 48 := rfl
    have : '9'.val.toNat = 57 := rfl
    omega
  all_goals decide

theorem PlainChar.ne {ch : Char} (h : PlainChar ch) : ch ≠ ';' ∧ ch ≠ '[' ∧ ch ≠ ']' ∧ ch ≠ ':' := by
  rcases h with h | rfl | rfl | rfl
  · refine ⟨?_, ?_, ?_, ?_⟩ <;> (rintro rfl; revert h; decide)
  all_goals decide

theorem Identifier.plain {cs : List Char} (h : Identifier cs) : cs ≠ [] ∧ ∀ ch ∈ cs, PlainChar ch := by
  obtain ⟨ch, rest, rfl, hch, hrest⟩ := h
  refine ⟨List.cons_ne_nil _ _, ?_⟩
  rintro d (_ | ⟨_, hd⟩)
  · rcases hch with hch | rfl
    · exact .inl (by simp [Char.isAlphanum, hch])
    · exact .inr (.inl rfl)
  · rcases hrest d hd with hd | rfl
    · exact .inl hd
    · exact .inr (.inl rfl)

theorem IntLiteral.plain {cs : List Char} {v : Int32} (h : IntLiteral cs v) :
    cs ≠ [] ∧ ∀ ch ∈ cs, PlainChar ch := by
  obtain ⟨sign, ds, rfl, hne, hdig, hsign⟩ := h
  have hds : ∀ d ∈ ds, PlainChar d := fun d hd => .inl (by simp [Char.isAlphanum, hdig d hd])
  refine ⟨by simp [hne], fun ch hch => ?_⟩
  rcases List.mem_append.1 hch with hs | hd
  · rcases hsign with ⟨rfl | rfl, -⟩ | ⟨rfl, -⟩ <;> simp_all [PlainChar]
  · exact hds ch hd

/-- An operand word is a nonempty run of plain characters. -/
theorem Arg.SpelledBy.plain {arg : Arg} {cs : List Char} (h : arg.SpelledBy cs) :
    cs ≠ [] ∧ ∀ ch ∈ cs, PlainChar ch := by
  cases arg with
  | int v => exact IntLiteral.plain h
  | reg r => exact h.identifier.plain
  | label n => exact h.1.1.plain

/-- A mnemonic, in any case, is a nonempty run of letters. -/
theorem Mnemonic.plain {cs : List Char} {op : Opcode} (h : Mnemonic cs op) :
    cs ≠ [] ∧ ∀ ch ∈ cs, PlainChar ch := by
  have halpha := isAlpha_of_map_toLower h (by
    rcases op with _ | _ | _ | ⟨_ | _ | _ | _⟩ | _ | _ | _ | ⟨_ | _ | _ | _ | _ | _⟩ | _ | _ <;>
      simp [Opcode.mnemonic])
  refine ⟨?_, fun ch hch => .inl (by simp [Char.isAlphanum, halpha ch hch])⟩
  rintro rfl
  rcases op with _ | _ | _ | ⟨_ | _ | _ | _⟩ | _ | _ | _ | ⟨_ | _ | _ | _ | _ | _⟩ | _ | _ <;>
    simp [Mnemonic, Opcode.mnemonic] at h

/-! ## Printed words -/

theorem toList_toString (v : Int32) : (toString v).toList =
    if 0 ≤ v.toInt then Nat.toDigits 10 v.toInt.toNat
    else '-' :: Nat.toDigits 10 (-v.toInt).toNat := by
  show v.toInt.repr.toList = _
  rw [Int.repr_eq_if]
  split <;> simp [Nat.repr]

/-- A number prints as a numeral of itself. -/
theorem intLiteral_toString (v : Int32) : IntLiteral (toString v).toList v := by
  have hdig : ∀ n, ∀ d ∈ Nat.toDigits 10 n, d.isDigit = true := fun _ _ hd =>
    Nat.isDigit_of_mem_toDigits (by decide) (by decide) hd
  rw [toList_toString]
  split
  · rename_i hnn
    refine ⟨[], Nat.toDigits 10 v.toInt.toNat, rfl, Nat.toDigits_ne_nil, hdig _, .inl ⟨.inl rfl, ?_⟩⟩
    rw [Nat.ofDigitChars_ten_toDigits, Int.toNat_of_nonneg hnn]
  · refine ⟨['-'], Nat.toDigits 10 (-v.toInt).toNat, rfl, Nat.toDigits_ne_nil, hdig _,
      .inr ⟨rfl, ?_⟩⟩
    rw [Nat.ofDigitChars_ten_toDigits, Int.toNat_of_nonneg (by omega), Int.neg_neg]

theorem registerName_name (r : Register) : RegisterName r.name.toList r := r.name_toLower

theorem mnemonic_mnemonic (op : Opcode) : Mnemonic op.mnemonic.toList op := op.mnemonic_toLower

end StackMachine
