import Mathlib
import StackMachine.Proofs.LineGrammar
import StackMachine.Proofs.SourceText
/-!
# Listings assemble back

An instruction prints as its mnemonic and then its operand in the syntax the assembler
reads, so its text spells it (`Instruction.text_spelled`). Code listed and printed one
instruction per line is then a program whose lines carry exactly the listed instructions and
define no label: `listing_reassembles`, it assembles back to the code it was listed from.
-/

namespace StackMachine

/-! ## An instruction's text spells it -/

theorem Form.eq_fixed_of_written {f : Form} {i : Instruction} (h : f.written = .instr i) :
    f = .fixed i := by
  cases f with
  | fixed j =>
    cases h
    rfl
  | toLabel => cases h

theorem blanks_space : Blanks [' '] := by
  intro c hc
  rw [List.mem_singleton.1 hc]
  rfl

/-- An operand prints, after its mnemonic, as the assembler reads it. -/
theorem operandPart_suffix (op : Opcode) (o : Operand) (h : op.operandClass.admits o.mode = true) :
    OperandPart op (.instr (Instruction.make op o h)) o.suffix.toList := by
  have hsp : [' '] ≠ [] := List.cons_ne_nil _ _
  have hnone : Blanks [] := fun _ h => nomatch h
  cases o with
  | none => exact .none h
  | imm v =>
    have hs : (Operand.imm v).suffix.toList = [' '] ++ (toString v).toList := by simp [Operand.suffix]
    rw [hs]
    exact .operand h blanks_space hsp (.imm (intLiteral_toString v))
  | reg r =>
    have hs : (Operand.reg r).suffix.toList = [' '] ++ r.name.toList := by simp [Operand.suffix]
    rw [hs]
    exact .operand h blanks_space hsp (.reg (registerName_name r))
  | memImm a =>
    have hs : (Operand.memImm a).suffix.toList =
        [' '] ++ ('[' :: ([] ++ (toString a).toList ++ []) ++ [']']) := by simp [Operand.suffix]
    rw [hs]
    exact .operand h blanks_space hsp (.memImm hnone (intLiteral_toString a) hnone)
  | memReg r =>
    have hs : (Operand.memReg r).suffix.toList = [' '] ++ ('[' :: ([] ++ r.name.toList ++ []) ++ [']']) := by
      simp [Operand.suffix]
    rw [hs]
    exact .operand h blanks_space hsp (.memReg hnone (registerName_name r) hnone)

/-- An instruction's text spells it: its mnemonic, then its operand as the assembler reads
it. -/
theorem Instruction.text_spelled (i : Instruction) :
    (⟨none, some (.instr i)⟩ : Statement).SpelledBy i.text.toList := by
  have hpart := operandPart_suffix i.opcode i.operand i.admits
  rw [i.make_opcode_operand] at hpart
  refine ⟨[], [], i.text.toList, [], by simp, (fun _ h => nomatch h), .none, ?_, (fun _ h => nomatch h)⟩
  rw [Instruction.text, String.toList_append]
  exact .some (mnemonic_mnemonic i.opcode) hpart

theorem PlainChar.lineChar {c : Char} (h : PlainChar c) : LineChar c := by
  have hb := h.isBlank
  refine ⟨?_, fun hn => ?_, fun hr => ?_⟩
  · rcases h with h | rfl | rfl | rfl
    · simp only [Char.isAlphanum, Char.isAlpha, Char.isUpper, Char.isLower, Char.isDigit,
        Bool.or_eq_true, Bool.and_eq_true, decide_eq_true_eq, UInt32.le_iff_toNat_le] at h
      have hval : c.toNat = c.val.toNat := rfl
      have : 'z'.val.toNat = 122 := rfl
      have : 'Z'.val.toNat = 90 := rfl
      have : '9'.val.toNat = 57 := rfl
      omega
    all_goals decide
  · rw [hn] at hb
    exact absurd hb (by decide)
  · rw [hr] at hb
    exact absurd hb (by decide)

/-- An operand prints as plain characters, a blank and brackets. -/
theorem Operand.suffix_chars (o : Operand) :
    ∀ c ∈ o.suffix.toList, PlainChar c ∨ c = ' ' ∨ c = '[' ∨ c = ']' := by
  have hnum : ∀ v : Int32, ∀ c ∈ (toString v).toList, PlainChar c :=
    fun v => (intLiteral_toString v).plain.2
  have hreg : ∀ r : Register, ∀ c ∈ r.name.toList, PlainChar c :=
    fun r => (registerName_name r).identifier.plain.2
  intro c hc
  cases o <;> simp only [Operand.suffix, String.toList_append, List.mem_append] at hc
  · simp at hc
  · rcases hc with hc | hc
    · exact .inr (.inl (by simpa using hc))
    · exact .inl (hnum _ c hc)
  · rcases hc with hc | hc
    · exact .inr (.inl (by simpa using hc))
    · exact .inl (hreg _ c hc)
  · rcases hc with (hc | hc) | hc
    · have hc' : c = ' ' ∨ c = '[' := by simpa using hc
      exact .inr (hc'.imp_right .inl)
    · exact .inl (hnum _ c hc)
    · exact .inr (.inr (.inr (by simpa using hc)))
  · rcases hc with (hc | hc) | hc
    · have hc' : c = ' ' ∨ c = '[' := by simpa using hc
      exact .inr (hc'.imp_right .inl)
    · exact .inl (hreg _ c hc)
    · exact .inr (.inr (.inr (by simpa using hc)))

/-- An instruction's text is a nonempty line of ASCII characters. -/
theorem Instruction.text_lineChars (i : Instruction) :
    i.text ≠ "" ∧ ∀ c ∈ i.text.toList, LineChar c := by
  have hm := (mnemonic_mnemonic i.opcode).plain
  refine ⟨fun h => ?_, fun c hc => ?_⟩
  · have hnil := congrArg String.toList h
    simp only [Instruction.text, String.toList_append, String.toList_empty, List.append_eq_nil_iff] at hnil
    exact hm.1 hnil.1
  rw [Instruction.text, String.toList_append, List.mem_append] at hc
  rcases hc with hc | hc
  · exact (hm.2 c hc).lineChar
  · rcases i.operand.suffix_chars c hc with h | rfl | rfl | rfl
    · exact h.lineChar
    all_goals decide

/-! ## A program of printed instructions -/

/-- A line holding an instruction's text reads as that instruction and defines no label. -/
theorem Cursor.reads_text {c : Cursor} {i : Instruction} (h : c.rest = i.text.toList) :
    c.Reads ∧ c.definedLabel? = none ∧ c.form? = some (.fixed i) := by
  have hsp := i.text_spelled
  have hcode : c.code = i.text.toList :=
    Cursor.code_eq (t := []) (by simpa using h) hsp.ne_semicolon (fun _ h => nomatch h)
  rw [← hcode] at hsp
  obtain ⟨hr, hl, hf⟩ := Cursor.reads_of_spelled hsp
  obtain ⟨f, hf', hw⟩ := Option.map_eq_some_iff.1 hf
  exact ⟨hr, hl, hf'.trans (congrArg some (Form.eq_fixed_of_written hw))⟩

theorem Cursor.emittedBy_texts {cs : List Cursor} {is : List Instruction}
    (h : List.Forall₂ (fun c i => c.rest = i.text.toList) cs is) :
    (∀ c ∈ cs, c.Reads) ∧ Cursor.definedBy cs = [] ∧
      List.Forall₂ (fun x i => x.2 = .fixed i) (Cursor.emittedBy cs) is := by
  induction h with
  | nil => exact ⟨(fun _ h => nomatch h), rfl, .nil⟩
  | @cons c i cs is hci _ ih =>
    obtain ⟨hr, hl, hf⟩ := Cursor.reads_text hci
    refine ⟨List.forall_mem_cons.2 ⟨hr, ih.1⟩, ?_, ?_⟩
    · rw [Cursor.definedBy_cons, hl, ih.2.1]
      rfl
    · rw [Cursor.emittedBy_cons, hf]
      exact .cons rfl ih.2.2

theorem Program.rest_cursors (p : Program) : p.cursors.map Cursor.rest = p.lines.map String.toList := by
  rw [cursors_eq, List.map_map]
  apply List.ext_getElem
  · simp
  · intro k h1 h2
    simp [Cursor.start, List.getD_eq_getElem?_getD, List.getElem?_eq_getElem (by simpa using h1)]

/-- A program whose lines are instructions' texts assembles to those instructions, with no
label. -/
theorem Program.assemble_texts (is : List Instruction) :
    (⟨is.map Instruction.text⟩ : Program).assemble = .ok ⟨is, LabelTable.empty⟩ := by
  set p : Program := ⟨is.map Instruction.text⟩
  have hrest : List.Forall₂ (fun c i => c.rest = i.text.toList) p.cursors is := by
    have h := p.rest_cursors
    rw [show p.lines = is.map Instruction.text from rfl, List.map_map, ← List.forall₂_eq_eq_eq,
      List.forall₂_map_left_iff, List.forall₂_map_right_iff] at h
    exact h
  obtain ⟨hreads, hdef, hemit⟩ := Cursor.emittedBy_texts hrest
  have hclean : p.survey.errors.size = 0 :=
    (survey_clean_iff p).2 ⟨hreads, by rw [definitions, hdef]; exact List.nodup_nil⟩
  obtain ⟨hlab, hforms, -⟩ := survey_of_clean hclean
  have hempty : p.survey.labels = LabelTable.empty := by
    rw [definitions, hdef] at hlab
    rcases hs : p.survey.labels with ⟨entries⟩
    rw [hs] at hlab
    cases hlab
    rfl
  rw [assemble_eq_ok_iff]
  refine ⟨hclean, ?_, hempty.symm⟩
  rw [hforms, resolveAll_eq_ok_iff]
  exact hemit.imp fun x i hx => by rw [hx]; rfl

/-! ## Listings -/

/-- A listing lists the code from where it starts, one encoding after another. -/
theorem listFrom_drop {code : Array UInt8} {pos : Nat} {L : List (Nat × Instruction)}
    (h : listFrom code pos = .ok L) :
    code.toList.drop pos = (L.map (·.2)).flatMap Instruction.encode := by
  fun_induction listFrom code pos generalizing L with
  | case1 => simp at h
  | case2 pos _ i hdec ih =>
    rcases hrest : listFrom code (pos + i.size) with e | L'
    · rw [hrest] at h
      simp [Except.map] at h
    rw [hrest] at h
    simp only [Except.map, Except.ok.injEq] at h
    subst h
    -- the instruction's encoding stands at `pos`, and the rest of the listing after it
    obtain ⟨rest, hpre⟩ := decodeAt_eq_ok_iff.1 hdec
    have hdrop : code.toList.drop (pos + i.size) = rest := by
      rw [← List.drop_drop, ← hpre, ← Instruction.length_encode, List.drop_left]
    rw [List.map_cons, List.flatMap_cons, ← ih hrest, hdrop, hpre]
  | case3 pos hpos =>
    simp only [Except.ok.injEq] at h
    subst h
    simp only [List.map_nil, List.flatMap_nil]
    exact List.drop_eq_nil_of_le (by simp only [Array.length_toList]; omega)

/-- Listed code printed one instruction per line assembles back to the same code, with no
label; so does any single instruction's text, to its encoding. -/
theorem listing_reassembles :
    (∀ (code : List UInt8) (L : List (Nat × Instruction)), listing code.toArray = .ok L →
      ∃ p a, Program.read ("\n".intercalate (L.map fun e => e.2.text)).toUTF8.toList = .ok p ∧
        p.assemble = .ok a ∧ a.payload = code ∧ a.labels = LabelTable.empty) ∧
    (∀ i : Instruction, ∃ p a, Program.read i.text.toUTF8.toList = .ok p ∧ p.assemble = .ok a ∧
      a.payload = i.encode ∧ a.labels = LabelTable.empty) := by
  have hread : ∀ is : List Instruction,
      Program.read ("\n".intercalate (is.map Instruction.text)).toUTF8.toList =
        .ok ⟨is.map Instruction.text⟩ := fun is =>
    Program.read_text (by simpa using fun i _ => i.text_lineChars.1)
      (by simpa using fun i _ => i.text_lineChars.2)
  refine ⟨fun code L h => ?_, fun i => ?_⟩
  · have hcode : code = (L.map (·.2)).flatMap Instruction.encode := by
      simpa using listFrom_drop (show listFrom code.toArray 0 = .ok L from h)
    refine ⟨_, _, ?_, Program.assemble_texts (L.map (·.2)), by rw [hcode]; rfl, rfl⟩
    have hL := hread (L.map (·.2))
    rw [List.map_map] at hL ⊢
    exact hL
  · refine ⟨_, _, ?_, Program.assemble_texts [i], by simp [Assembly.payload], rfl⟩
    simpa using hread [i]

theorem listing_reassembles_push_halt :
    listing (([.push (.imm (-5)), .halt] : List Instruction).flatMap Instruction.encode).toArray =
        .ok (Instruction.layout 0 [.push (.imm (-5)), .halt]) ∧
      ∃ p a, Program.read ("\n".intercalate ((Instruction.layout 0 [.push (.imm (-5)), .halt]).map
          fun e => e.2.text)).toUTF8.toList = .ok p ∧ p.assemble = .ok a ∧
        a.payload = ([.push (.imm (-5)), .halt] : List Instruction).flatMap Instruction.encode ∧
        a.labels = LabelTable.empty :=
  ⟨listing_flatMap_encode _, listing_reassembles.1 _ _ (listing_flatMap_encode _)⟩

end StackMachine
