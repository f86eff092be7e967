import Mathlib
import StackMachine.Proofs.Lexer
import StackMachine.Proofs.Resolution
/-!
# The line grammar

The assembler accepts a line exactly when the code before its first `;` is, in order:
blanks; optionally a label name and `:`, followed by blanks or by the end of the code;
optionally a mnemonic, with blanks and an operand after it if its opcode takes one; and
blanks. The operands an opcode takes are those its class admits: none for a nullary opcode,
an optional register or memory cell for `pop`, a number, register or memory cell for
`push`, and a bare number or label name for jumps and calls. `Statement.SpelledBy` writes
this grammar down, and `Cursor.reads_iff_spelled` shows that the reader accepts exactly it,
reading each line as the statement it spells.

`line_accepts_exactly_grammar`: the first pass takes a line without error exactly when the
line spells a statement whose label is new, and records that statement; the second pass,
once every label the statement names is bound, turns it into the instruction it denotes,
which takes the bytes the first pass laid out for it.
-/

namespace StackMachine

open Text

/-! ## The grammar -/

/-- How an operand is written: an immediate as a numeral, a register by its name, and a
memory cell as either of them in brackets, with blanks allowed inside. -/
inductive OperandSpelling : Operand → List Char → Prop
  | imm {v : Int32} {t : List Char} : IntLiteral t v → OperandSpelling (.imm v) t
  | reg {r : Register} {t : List Char} : RegisterName t r → OperandSpelling (.reg r) t
  | memImm {a : Int32} {b t b' : List Char} : Blanks b → IntLiteral t a → Blanks b' →
      OperandSpelling (.memImm a) ('[' :: (b ++ t ++ b') ++ [']'])
  | memReg {r : Register} {b t b' : List Char} : Blanks b → RegisterName t r → Blanks b' →
      OperandSpelling (.memReg r) ('[' :: (b ++ t ++ b') ++ [']'])

/-- An instruction as a line writes it: complete, or a jump or call to a named label. -/
inductive Written
  | instr (i : Instruction)
  | toLabel (op : Opcode) (isTarget : op.operandClass = .target) (name : String)

/-- What follows the mnemonic of `op` in a line that writes `w`: nothing, when the class of
`op` admits no operand; or blanks and then an operand the class admits, or, for a jump or a
call, a label name. -/
inductive OperandPart (op : Opcode) : Written → List Char → Prop
  | none (h : op.operandClass.admits .none = true) :
      OperandPart op (.instr (Instruction.make op .none h)) []
  | operand {o : Operand} {b t : List Char} (h : op.operandClass.admits o.mode = true) :
      Blanks b → b ≠ [] → OperandSpelling o t →
      OperandPart op (.instr (Instruction.make op o h)) (b ++ t)
  | label {b t : List Char} (h : op.operandClass = .target) : Blanks b → b ≠ [] → LabelName t →
      OperandPart op (.toLabel op h (String.ofList t)) (b ++ t)

/-- What a line says: the label it defines and the instruction it writes, each if any. -/
structure Statement where
  label : Option String
  written : Option Written

/-- The start of a line's code that defines `label`, followed by the code `after`: nothing,
or a label name and `:` followed by blanks or by the end of the code. -/
inductive LabelPart : Option String → List Char → List Char → Prop
  | none {after : List Char} : LabelPart none [] after
  | some {name b after : List Char} : LabelName name → Blanks b → (b = [] → after = []) →
      LabelPart (some (String.ofList name)) (name ++ ':' :: b) after

/-- The part of a line's code that writes `w`: nothing, or a mnemonic and what follows it. -/
inductive InstrPart : Option Written → List Char → Prop
  | none : InstrPart none []
  | some {m rest : List Char} {op : Opcode} {w : Written} : Mnemonic m op → OperandPart op w rest →
      InstrPart (some w) (m ++ rest)

/-- `code` spells the statement: blanks, its label part, its instruction part, blanks. -/
def Statement.SpelledBy (st : Statement) (code : List Char) : Prop :=
  ∃ b lab ins b', code = b ++ lab ++ ins ++ b' ∧ Blanks b ∧ LabelPart st.label lab (ins ++ b') ∧
    InstrPart st.written ins ∧ Blanks b'

/-- The code of a line: what stands before its first `;`. -/
def Cursor.code (c : Cursor) : List Char := c.rest.takeWhile (· ≠ ';')

/-- How an instruction form is written, without the place of its label. -/
def Form.written : Form → Written
  | .fixed i => .instr i
  | .toLabel op h name _ => .toLabel op h name

/-- A jump or call admits a label's offset as its operand. -/
theorem admits_label_offset {op : Opcode} (h : op.operandClass = .target) (d : LabelDef) :
    op.operandClass.admits (Operand.imm d.ip.toInt32).mode := by
  rw [h]
  rfl

/-- The instruction a written instruction denotes once labels are bound, if its label is. -/
def Written.resolve (labels : LabelTable) : Written → Option Instruction
  | .instr i => some i
  | .toLabel op h name => (labels.get? name).map fun d =>
      Instruction.make op (.imm d.ip.toInt32) (admits_label_offset h d)

/-! ## The code of a line holds no `;` -/

theorem Blanks.ne_semicolon {b : List Char} (hb : Blanks b) : ∀ ch ∈ b, ch ≠ ';' :=
  fun ch h => (blank_ne (hb ch h)).1

theorem OperandSpelling.ne_semicolon {o : Operand} {t : List Char} (h : OperandSpelling o t) :
    ∀ ch ∈ t, ch ≠ ';' := by
  have hplain : ∀ {t}, (t ≠ [] ∧ ∀ ch ∈ t, PlainChar ch) → ∀ ch ∈ t, ch ≠ ';' :=
    fun hs ch hch => (hs.2 ch hch).ne.1
  have hbracket : ∀ {b t b'}, Blanks b → (t ≠ [] ∧ ∀ ch ∈ t, PlainChar ch) → Blanks b' →
      ∀ ch ∈ '[' :: (b ++ t ++ b') ++ [']'], ch ≠ ';' := by
    intro b t b' hb hs hb' ch hch
    simp only [List.cons_append, List.mem_cons, List.mem_append, List.not_mem_nil, or_false] at hch
    rcases hch with rfl | ((h | h) | h) | rfl
    · decide
    · exact hb.ne_semicolon ch h
    · exact hplain hs ch h
    · exact hb'.ne_semicolon ch h
    · decide
  cases h with
  | imm h => exact hplain h.plain
  | reg h => exact hplain h.identifier.plain
  | memImm hb h hb' => exact hbracket hb h.plain hb'
  | memReg hb h hb' => exact hbracket hb h.identifier.plain hb'

theorem OperandPart.ne_semicolon {op : Opcode} {w : Written} {rest : List Char}
    (h : OperandPart op w rest) : ∀ ch ∈ rest, ch ≠ ';' := by
  cases h with
  | none => simp
  | operand _ hb _ ho =>
    intro ch hch
    rcases List.mem_append.1 hch with h | h
    · exact hb.ne_semicolon ch h
    · exact ho.ne_semicolon ch h
  | label _ hb _ hl =>
    intro ch hch
    rcases List.mem_append.1 hch with h | h
    · exact hb.ne_semicolon ch h
    · exact (hl.1.plain.2 ch h).ne.1

theorem InstrPart.ne_semicolon {w : Option Written} {ins : List Char} (h : InstrPart w ins) :
    ∀ ch ∈ ins, ch ≠ ';' := by
  cases h with
  | none => simp
  | some hm hop =>
    intro ch hch
    rcases List.mem_append.1 hch with h | h
    · exact (hm.plain.2 ch h).ne.1
    · exact hop.ne_semicolon ch h

theorem LabelPart.ne_semicolon {label : Option String} {lab after : List Char}
    (h : LabelPart label lab after) : ∀ ch ∈ lab, ch ≠ ';' := by
  cases h with
  | none => simp
  | some hname hb _ =>
    intro ch hch
    simp only [List.mem_append, List.mem_cons] at hch
    rcases hch with h | rfl | h
    · exact (hname.1.plain.2 ch h).ne.1
    · decide
    · exact hb.ne_semicolon ch h

theorem Statement.SpelledBy.ne_semicolon {st : Statement} {code : List Char}
    (h : st.SpelledBy code) : ∀ ch ∈ code, ch ≠ ';' := by
  obtain ⟨b, lab, ins, b', rfl, hb, hlab, hins, hb'⟩ := h
  intro ch hch
  simp only [List.mem_append] at hch
  rcases hch with ((h | h) | h) | h
  · exact hb.ne_semicolon ch h
  · exact hlab.ne_semicolon ch h
  · exact hins.ne_semicolon ch h
  · exact hb'.ne_semicolon ch h

theorem Cursor.code_split (c : Cursor) :
    c.rest = c.code ++ c.rest.dropWhile (· ≠ ';') ∧ CodeEnd (c.rest.dropWhile (· ≠ ';')) := by
  refine ⟨List.takeWhile_append_dropWhile.symm, fun ch hch => ?_⟩
  have hhead := List.head?_dropWhile_not (· ≠ ';') c.rest
  rw [hch] at hhead
  simpa using hhead

theorem Cursor.code_eq {c : Cursor} {x t : List Char} (hc : c.rest = x ++ t)
    (hx : ∀ ch ∈ x, ch ≠ ';') (ht : CodeEnd t) : c.code = x := by
  rw [code, hc]
  exact takeWhile_exact (fun ch h => by simpa using hx ch h) (fun ch h => by simp [ht ch h])

/-! ## Instructions from their parts -/

theorem OperandSyntax.mode_ne_none_of_direct? {s : OperandSyntax} {o : Operand}
    (h : s.direct? = some o) : o.mode ≠ .none := by
  rcases s with ⟨_ | _ | _, _, _ | _⟩ <;> simp [direct?] at h <;> simp [← h, Operand.mode]

namespace Cursor

theorem form_none_eq_ok_iff {c : Cursor} {op : Opcode} {span : Span} {f : Form} :
    c.form op span none = .ok f ↔ ∃ h, f = .fixed (Instruction.make op .none h) := by
  unfold form
  split
  case h_1 | h_2 =>
    simp only [Except.ok.injEq]
    constructor
    · rintro rfl
      exact ⟨_, rfl⟩
    · rintro ⟨h, rfl⟩
      rfl
  case h_3 hn hs =>
    simp only [fail, reduceCtorEq, false_iff, not_exists]
    intro h _
    have hadm : op.operandClass.admits .none = true := h
    cases hcl : op.operandClass <;> simp_all [OperandClass.admits]
  all_goals simp_all

theorem form_some_eq_ok_iff {c : Cursor} {op : Opcode} {span : Span} {s : OperandSyntax}
    {f : Form} :
    c.form op span (some s) = .ok f ↔
      (∃ o h, s.direct? = some o ∧ f = .fixed (Instruction.make op o h)) ∨
      (∃ name, ∃ h : op.operandClass = .target, s.indirect = false ∧ s.arg = .label name ∧
        f = .toLabel op h name s.word.span) := by
  unfold form
  split
  case h_1 | h_2 | h_3 => simp_all
  case h_4 hc hsome =>
    obtain rfl := Option.some.inj hsome
    simp only [fail, reduceCtorEq, false_iff, not_or, not_exists, not_and]
    refine ⟨fun o h hd _ => ?_, fun name hc' => absurd (hc.symm.trans hc') (by decide)⟩
    have hadm : op.operandClass.admits o.mode = true := h
    rw [hc] at hadm
    simp only [OperandClass.admits, beq_iff_eq] at hadm
    exact OperandSyntax.mode_ne_none_of_direct? hd hadm
  case h_5 hc hsome =>
    obtain rfl := Option.some.inj hsome
    rcases s with ⟨_ | _ | _, w, _ | _⟩ <;>
      simp [OperandSyntax.direct?, fail, hc, OperandClass.admits, Operand.mode]
    all_goals exact eq_comm
  case h_6 hsome _ ht =>
    obtain rfl := Option.some.inj hsome
    rw [or_iff_left (by rintro ⟨_, hc, -⟩; exact ht hc)]
    dsimp only
    rcases hd : s.direct? with _ | o
    · simp [fail]
    · simp only [Option.some.injEq, exists_and_left, exists_eq_left']
      split
      · rename_i hadm
        simp only [Except.ok.injEq]
        exact ⟨fun h => ⟨hadm, h.symm⟩, fun h => h.2.symm⟩
      · simp [fail, *]

theorem instruction_eq_ok_iff {c : Cursor} {m : Word} {f : Form} :
    c.instruction m = .ok f ↔ ∃ op read, Opcode.ofMnemonic? m.text = some op ∧
      c.operand? = .ok read ∧ c.form op m.span (read.map (·.1)) = .ok f ∧
      ((read.map (·.2)).getD c).nextWord? = none := by
  unfold instruction
  simp only [bind, Except.bind, pure, Except.pure]
  constructor
  · intro h
    rcases hop : Opcode.ofMnemonic? m.text with _ | op <;> simp only [hop] at h
    · cases h
    rcases hr : c.operand? with e | read <;> simp only [hr] at h
    · cases h
    rcases hf : c.form op m.span (read.map (·.1)) with e | f' <;> simp only [hf] at h
    · cases h
    rcases hn : ((read.map (·.2)).getD c).nextWord? with _ | ⟨extra, _⟩ <;> simp only [hn] at h
    · exact ⟨op, read, rfl, rfl, (Except.ok.inj h) ▸ hf, hn⟩
    · rcases hb : c.checkBrackets extra with e | ⟨⟩ <;> simp only [hb, fail] at h <;> cases h
  · rintro ⟨op, read, hop, hr, hf, hn⟩
    simp only [hop, hr, hf, hn]

end Cursor

/-! ## Operands and their spellings -/

theorem CodeEnd.wordEnd {r : List Char} (h : CodeEnd r) : WordEnd r := by
  intro ch hch
  rw [h ch hch]
  rfl

theorem wordEnd_of_blanks {b r : List Char} (hb : Blanks b) (hr : b = [] → WordEnd r) :
    WordEnd (b ++ r) := by
  rcases b with _ | ⟨x, b⟩
  · exact hr rfl
  · intro ch hch
    simp only [List.cons_append, List.head?_cons, Option.mem_def, Option.some.injEq] at hch
    subst hch
    simp [Cursor.endsWord, hb x List.mem_cons_self]

/-- Blanks before a word stand after another word only if there are some. -/
theorem blanks_ne_nil {b t r : List Char} (hend : WordEnd (b ++ t ++ r)) (ht : t ≠ [])
    (hhead : ∀ ch ∈ t.head?, Cursor.endsWord ch = false) : b ≠ [] := by
  rintro rfl
  obtain ⟨x, t', rfl⟩ := List.exists_cons_of_ne_nil ht
  have h1 := hend x (by simp)
  have h2 := hhead x rfl
  rw [h1] at h2
  cases h2

namespace Cursor

theorem operand?_of_spelling {c : Cursor} {b t r : List Char} {o : Operand}
    (hc : c.rest = b ++ t ++ r) (hb : Blanks b) (ho : OperandSpelling o t) (hr : WordEnd r) :
    ∃ s c', c.operand? = .ok (some (s, c')) ∧ s.direct? = some o ∧ c'.rest = r := by
  cases ho with
  | imm h =>
    obtain ⟨w, c', hread, -, hrest⟩ := operand?_of_word hc hb (show Arg.SpelledBy (.int _) _ from h) hr
    exact ⟨_, c', hread, rfl, hrest⟩
  | reg h =>
    obtain ⟨w, c', hread, -, hrest⟩ := operand?_of_word hc hb (show Arg.SpelledBy (.reg _) _ from h) hr
    exact ⟨_, c', hread, rfl, hrest⟩
  | memImm hb1 h hb2 =>
    obtain ⟨w, c', hread, -, hrest⟩ := operand?_of_brackets (by simpa using hc) hb hb1 hb2
      (show Arg.SpelledBy (.int _) _ from h)
    exact ⟨_, c', hread, rfl, hrest⟩
  | memReg hb1 h hb2 =>
    obtain ⟨w, c', hread, -, hrest⟩ := operand?_of_brackets (by simpa using hc) hb hb1 hb2
      (show Arg.SpelledBy (.reg _) _ from h)
    exact ⟨_, c', hread, rfl, hrest⟩

/-- What the operand reader reads is written as the operand it gives, and a label operand
without brackets as the label's name. -/
theorem operand?_spells {c c' : Cursor} {s : OperandSyntax} (h : c.operand? = .ok (some (s, c'))) :
    ∃ b t, c.rest = b ++ t ++ c'.rest ∧ Blanks b ∧ t ≠ [] ∧
      (∀ ch ∈ t.head?, endsWord ch = false) ∧ (∀ o, s.direct? = some o → OperandSpelling o t) ∧
      (∀ name, s.indirect = false → s.arg = .label name → LabelName t ∧ name = String.ofList t) := by
  obtain ⟨hs, b, hb, ⟨hind, hc, -⟩ | ⟨hind, b1, b2, hb1, hb2, hc⟩⟩ := operand?_sound h
  · obtain ⟨hne, hplain⟩ := hs.plain
    refine ⟨b, _, hc, hb, hne, fun ch hch => (hplain ch (List.mem_of_mem_head? hch)).endsWord,
      fun o hd => ?_, fun name _ harg => ?_⟩
    · rcases s with ⟨v | r | n, w, _ | _⟩ <;> simp [OperandSyntax.direct?] at hd hind <;> subst hd
      · exact .imm hs
      · exact .reg hs
    · rw [harg] at hs
      exact hs
  · -- a word in brackets: only a number or a register makes a memory operand
    refine ⟨b, '[' :: (b1 ++ s.word.chars ++ b2) ++ [']'], by simpa using hc, hb, by simp,
      by simp [endsWord, isBlank], fun o hd => ?_, fun name h => by rw [hind] at h; cases h⟩
    rcases s with ⟨v | r | n, w, _ | _⟩ <;> simp [OperandSyntax.direct?] at hd hind <;> subst hd
    · exact .memImm hb1 hs hb2
    · exact .memReg hb1 hs hb2

end Cursor

/-! ## The instruction of a line -/

namespace Cursor

/-- The instruction reader, at the blanks after a mnemonic, reads what the grammar says
follows the mnemonic. -/
theorem instruction_of_operandPart {c : Cursor} {w : Word} {op : Opcode} {wr : Written}
    {rest b' tail : List Char} (hm : Mnemonic w.chars op) (hop : OperandPart op wr rest)
    (hc : c.rest = rest ++ b' ++ tail) (hb' : Blanks b') (ht : CodeEnd tail) :
    ∃ f, c.instruction w = .ok f ∧ f.written = wr := by
  have hmn : Opcode.ofMnemonic? w.text = some op := Opcode.ofMnemonic?_eq_some_iff.2 hm
  have hend : WordEnd (b' ++ tail) := wordEnd_of_blanks hb' fun _ => ht.wordEnd
  have hnone : ∀ k : Cursor, k.rest = b' ++ tail → k.nextWord? = none := fun k hk =>
    nextWord?_eq_none_iff.2 ⟨b', tail, hk, hb', ht⟩
  cases hop with
  | none h =>
    have hr : c.operand? = .ok none := operand?_eq_ok_none.2 ⟨b', tail, by simpa using hc, hb', ht⟩
    exact ⟨_, instruction_eq_ok_iff.2 ⟨op, none, hmn, hr, form_none_eq_ok_iff.2 ⟨h, rfl⟩,
      hnone c (by simpa using hc)⟩, rfl⟩
  | operand h hb _ ho =>
    obtain ⟨s, c', hr, hd, hrest⟩ := operand?_of_spelling (by simpa using hc) hb ho hend
    exact ⟨_, instruction_eq_ok_iff.2 ⟨op, some (s, c'), hmn, hr,
      form_some_eq_ok_iff.2 (.inl ⟨_, h, hd, rfl⟩), hnone c' hrest⟩, rfl⟩
  | label h hb _ hl =>
    obtain ⟨s, c', hr, -, hrest⟩ := operand?_of_word (by simpa using hc) hb
      (show Arg.SpelledBy (.label _) _ from ⟨hl, rfl⟩) hend
    exact ⟨_, instruction_eq_ok_iff.2 ⟨op, some (_, c'), hmn, hr,
      form_some_eq_ok_iff.2 (.inr ⟨_, h, rfl, rfl, rfl⟩), hnone c' hrest⟩, rfl⟩

/-- What the instruction reader reads after a mnemonic is what the grammar says follows it. -/
theorem operandPart_of_instruction {c : Cursor} {w : Word} {f : Form}
    (h : c.instruction w = .ok f) (hstart : WordEnd c.rest) :
    ∃ op rest b' tail, Mnemonic w.chars op ∧ OperandPart op f.written rest ∧
      c.rest = rest ++ b' ++ tail ∧ Blanks b' ∧ CodeEnd tail := by
  obtain ⟨op, read, hop, hr, hf, hn⟩ := instruction_eq_ok_iff.1 h
  have hm : Mnemonic w.chars op := Opcode.ofMnemonic?_eq_some_iff.1 hop
  rcases read with _ | ⟨s, c'⟩
  · obtain ⟨b', tail, hc, hb', ht⟩ := operand?_eq_ok_none.1 hr
    obtain ⟨hadm, rfl⟩ := form_none_eq_ok_iff.1 hf
    exact ⟨op, [], b', tail, hm, .none hadm, by simpa using hc, hb', ht⟩
  · simp only [Option.map_some, Option.getD_some] at hf hn
    obtain ⟨b', tail, hc', hb', ht⟩ := nextWord?_eq_none_iff.1 hn
    obtain ⟨b, t, hc, hb, hne, hhead, hspell, hlabel⟩ := operand?_spells hr
    have hbne : b ≠ [] := blanks_ne_nil (hc ▸ hstart) hne hhead
    refine ⟨op, b ++ t, b', tail, hm, ?_, by rw [hc, hc']; simp, hb', ht⟩
    rcases form_some_eq_ok_iff.1 hf with ⟨o, hadm, hd, rfl⟩ | ⟨name, htgt, hind, harg, rfl⟩
    · exact .operand hadm hb hbne (hspell o hd)
    · obtain ⟨hl, rfl⟩ := hlabel name hind harg
      exact .label htgt hb hbne hl

end Cursor

/-! ## The start of a line -/

namespace Cursor

/-- A line starts with a label definition when its first word ends in `:` and the rest of
that word is a label name; otherwise its first word, if any, is its mnemonic. -/
theorem head_eq_ok_iff {c : Cursor} {h : Head} :
    c.head = .ok h ↔
      (h = ⟨none, c.nextWord?⟩ ∧ ∀ w next, c.nextWord? = some (w, next) → w.chars.getLast? ≠ some ':') ∨
      ∃ w next name, c.nextWord? = some (w, next) ∧ w.chars = name ++ [':'] ∧ LabelName name ∧
        h = ⟨some (String.ofList name, ⟨w.span.offset, w.span.length - 1⟩), next.nextWord?⟩ := by
  unfold head
  rcases hn : c.nextWord? with _ | ⟨w, next⟩
  · simp [eq_comm]
  dsimp only
  by_cases hl : w.chars.getLast? = some ':'
  · have hw : w.chars = w.chars.dropLast ++ [':'] := by
      rw [← List.dropLast_append_getLast? _ hl]
      simp
    have hname : ∀ name, w.chars = name ++ [':'] → name = w.chars.dropLast := fun name h => by
      rw [h, List.dropLast_concat]
    rw [if_pos hl, or_iff_right (by rintro ⟨-, hall⟩; exact hall w next rfl hl)]
    simp only [Option.some.injEq, Prod.mk.injEq]
    split_ifs with hv
    · simp only [fail, reduceCtorEq, false_iff, not_exists, not_and]
      rintro _ _ name ⟨rfl, rfl⟩ hw' hl' _
      rw [hname name hw', labelName_iff] at hl'
      simp [hl'.1, hl'.2] at hv
    · simp only [Except.ok.injEq]
      have hlab : LabelName w.chars.dropLast := labelName_iff.2 (by simpa using hv)
      constructor
      · rintro rfl
        exact ⟨w, next, _, ⟨rfl, rfl⟩, hw, hlab, rfl⟩
      · rintro ⟨_, _, name, ⟨rfl, rfl⟩, hw', -, rfl⟩
        rw [hname name hw']
  · rw [if_neg hl]
    simp only [Except.ok.injEq, Option.some.injEq, Prod.mk.injEq]
    constructor
    · rintro rfl
      exact .inl ⟨rfl, by rintro _ _ ⟨rfl, rfl⟩; exact hl⟩
    · rintro (⟨rfl, -⟩ | ⟨_, _, name, ⟨rfl, rfl⟩, hw', -⟩)
      · rfl
      · simp [hw'] at hl

end Cursor

/-! ## A line and the statement it spells -/

theorem OperandPart.wordEnd {op : Opcode} {w : Written} {rest b' tail : List Char}
    (h : OperandPart op w rest) (hb' : Blanks b') (ht : CodeEnd tail) :
    WordEnd (rest ++ b' ++ tail) := by
  cases h with
  | none => simpa using wordEnd_of_blanks hb' fun _ => ht.wordEnd
  | operand _ hb hne _ | label _ hb hne _ =>
    rw [List.append_assoc, List.append_assoc]
    exact wordEnd_of_blanks hb fun h => absurd h hne

namespace Cursor

/-- Read from `k` on, a line holds the instruction `wr`: no word when there is none, and
otherwise a mnemonic whose instruction reads as `wr`. -/
def ReadsInstr (k : Cursor) : Option Written → Prop
  | none => k.nextWord? = none
  | some wr => ∃ w next f, k.nextWord? = some (w, next) ∧ next.instruction w = .ok f ∧ f.written = wr

theorem readsInstr_of_instrPart {k : Cursor} {b1 ins b' tail : List Char} {wr : Option Written}
    (hk : k.rest = b1 ++ ins ++ b' ++ tail) (hb1 : Blanks b1) (hins : InstrPart wr ins)
    (hb' : Blanks b') (ht : CodeEnd tail) :
    k.ReadsInstr wr ∧ ∀ w next, k.nextWord? = some (w, next) → w.chars.getLast? ≠ some ':' := by
  cases hins with
  | none =>
    have hblank : Blanks (b1 ++ b') := fun ch h => (List.mem_append.1 h).elim (hb1 ch) (hb' ch)
    have hn : k.nextWord? = none := nextWord?_eq_none_iff.2 ⟨_, tail, by simpa using hk, hblank, ht⟩
    exact ⟨hn, by simp [hn]⟩
  | @some m rest op w hm hop =>
    obtain ⟨hne, hplain⟩ := hm.plain
    have hn := nextWord?_complete (r := rest ++ b' ++ tail) (by rw [hk]; simp) hb1 hne
      (fun ch h => (hplain ch h).endsWord) (hop.wordEnd hb' ht)
    obtain ⟨f, hf, hw⟩ := instruction_of_operandPart (w := ⟨m, ⟨k.pos + byteLength b1, byteLength m⟩⟩)
      (c := ⟨rest ++ b' ++ tail, k.pos + byteLength b1 + byteLength m, k.line⟩) hm hop rfl hb' ht
    refine ⟨⟨_, _, f, hn, hf, hw⟩, fun w next h hlast => ?_⟩
    rw [hn] at h
    obtain ⟨rfl, rfl⟩ := Prod.mk.inj (Option.some.inj h)
    exact (hplain ':' (List.mem_of_mem_getLast? hlast)).ne.2.2.2 rfl

theorem instrPart_of_readsInstr {k : Cursor} {wr : Option Written} (h : k.ReadsInstr wr) :
    ∃ b1 ins b' tail, k.rest = b1 ++ ins ++ b' ++ tail ∧ Blanks b1 ∧ InstrPart wr ins ∧
      Blanks b' ∧ CodeEnd tail ∧ (WordEnd k.rest → b1 = [] → ins ++ b' = []) := by
  cases wr with
  | none =>
    obtain ⟨b, r, hk, hb, hr⟩ := nextWord?_eq_none_iff.1 h
    exact ⟨b, [], [], r, by simpa using hk, hb, .none, (fun _ h => nomatch h), hr, fun _ _ => rfl⟩
  | some wr =>
    obtain ⟨w, next, f, hn, hf, rfl⟩ := h
    obtain ⟨b1, hk, hb1, hne, hword, hend, -⟩ := nextWord?_sound hn
    obtain ⟨op, rest, b', tail, hm, hop, hnext, hb', ht⟩ := operandPart_of_instruction hf hend
    refine ⟨b1, w.chars ++ rest, b', tail, by rw [hk, hnext]; simp, hb1, .some hm hop, hb', ht,
      fun hstart hnil => ?_⟩
    -- a word right at the start of `k` would continue the word before it
    exact absurd hnil (blanks_ne_nil (hk ▸ hstart) hne fun ch h => hword ch (List.mem_of_mem_head? h))

theorem reads_of_head {c k : Cursor} {label : Option (String × Span)} {wr : Option Written}
    (hh : c.head = .ok ⟨label, k.nextWord?⟩) (hk : k.ReadsInstr wr) :
    c.Reads ∧ c.definedLabel? = label.map (·.1) ∧ c.form?.map Form.written = wr := by
  cases wr with
  | none =>
    have hn : k.nextWord? = none := hk
    simp [Reads, definedLabel?, form?, hh, hn]
  | some wr =>
    obtain ⟨w, next, f, hn, hf, rfl⟩ := hk
    simp [Reads, definedLabel?, form?, hh, hn, hf, Except.toOption]

theorem readsInstr_of_head {c k : Cursor} {label : Option (String × Span)}
    (hh : c.head = .ok ⟨label, k.nextWord?⟩) (hr : c.Reads) :
    k.ReadsInstr (c.form?.map Form.written) := by
  unfold Reads at hr
  rw [hh] at hr
  rcases hn : k.nextWord? with _ | ⟨w, next⟩
  · have hform : c.form? = none := by simp [form?, hh, hn]
    rw [hform]
    exact hn
  · simp only [hn] at hr
    rcases hf : next.instruction w with e | f
    · simp [hf, Except.toOption] at hr
    · have hform : c.form? = some f := by simp [form?, hh, hn, hf, Except.toOption]
      rw [hform]
      exact ⟨w, next, f, hn, hf, rfl⟩

/-- A line whose code spells a statement reads, as that statement. -/
theorem reads_of_spelled {c : Cursor} {st : Statement} (h : st.SpelledBy c.code) :
    c.Reads ∧ c.definedLabel? = st.label ∧ c.form?.map Form.written = st.written := by
  rcases st with ⟨label, written⟩
  obtain ⟨b, lab, ins, b', hcode, hb, hlab, hins, hb'⟩ := h
  obtain ⟨hsplit, ht⟩ := c.code_split
  generalize c.rest.dropWhile (· ≠ ';') = tail at hsplit ht
  cases hlab with
  | none =>
    obtain ⟨hk, hcolon⟩ := readsInstr_of_instrPart (k := c) (by rw [hsplit, hcode]; simp) hb hins
      hb' ht
    simpa using reads_of_head (head_eq_ok_iff.2 (.inl ⟨rfl, hcolon⟩)) hk
  | some hname hb1 hsep =>
    rename_i name b1
    have hc : c.rest = b ++ (name ++ [':']) ++ (b1 ++ ins ++ b' ++ tail) := by
      rw [hsplit, hcode]
      simp
    have hword : WordChars (name ++ [':']) := by
      intro ch hch
      rcases List.mem_append.1 hch with h | h
      · exact (hname.1.plain.2 ch h).endsWord
      · rw [List.mem_singleton.1 h]
        rfl
    have hafter : WordEnd (b1 ++ ins ++ b' ++ tail) := by
      rw [List.append_assoc, List.append_assoc]
      refine wordEnd_of_blanks hb1 fun hnil => ?_
      rw [← List.append_assoc, hsep hnil]
      exact ht.wordEnd
    have hn := nextWord?_complete hc hb (by simp) hword hafter
    obtain ⟨hk, -⟩ := readsInstr_of_instrPart (k := ⟨_, _, c.line⟩) rfl hb1 hins hb' ht
    simpa using reads_of_head (head_eq_ok_iff.2 (.inr ⟨_, _, name, hn, rfl, hname, rfl⟩)) hk

/-- A line that reads spells the statement it reads as. -/
theorem spelled_of_reads {c : Cursor} (h : c.Reads) :
    (⟨c.definedLabel?, c.form?.map Form.written⟩ : Statement).SpelledBy c.code := by
  have hreads := h
  unfold Reads at h
  rcases hh : c.head with d | hd
  · simp [hh] at h
  rcases head_eq_ok_iff.1 hh with ⟨rfl, -⟩ | ⟨w, next, name, hn, hw, hname, rfl⟩
  · obtain ⟨b1, ins, b', tail, hc, hb1, hins, hb', ht, -⟩ :=
      instrPart_of_readsInstr (readsInstr_of_head hh hreads)
    have hlabel : c.definedLabel? = none := by simp [definedLabel?, hh]
    have hsp : Statement.SpelledBy ⟨c.definedLabel?, c.form?.map Form.written⟩
        (b1 ++ [] ++ ins ++ b') := ⟨b1, [], ins, b', rfl, hb1, by rw [hlabel]; exact .none, hins, hb'⟩
    rw [code_eq (by simpa using hc) hsp.ne_semicolon ht]
    exact hsp
  · obtain ⟨b, hc, hb, -, -, hend, -⟩ := nextWord?_sound hn
    obtain ⟨b1, ins, b', tail, hnext, hb1, hins, hb', ht, hsep⟩ :=
      instrPart_of_readsInstr (readsInstr_of_head hh hreads)
    have hlabel : c.definedLabel? = some (String.ofList name) := by simp [definedLabel?, hh]
    have hsp : Statement.SpelledBy ⟨c.definedLabel?, c.form?.map Form.written⟩
        (b ++ (name ++ ':' :: b1) ++ ins ++ b') :=
      ⟨b, _, ins, b', rfl, hb, by rw [hlabel]; exact .some hname hb1 (hsep hend), hins, hb'⟩
    rw [code_eq (by rw [hc, hw, hnext]; simp) hsp.ne_semicolon ht]
    exact hsp

/-- The assembler reads a line exactly when its code spells a statement. -/
theorem reads_iff_spelled (c : Cursor) : c.Reads ↔ ∃ st : Statement, st.SpelledBy c.code :=
  ⟨fun h => ⟨_, spelled_of_reads h⟩, by rintro ⟨_, h⟩; exact (reads_of_spelled h).1⟩

end Cursor

/-- A line's code spells one statement at most. -/
theorem Statement.SpelledBy.unique {st st' : Statement} {code : List Char} (h : st.SpelledBy code)
    (h' : st'.SpelledBy code) : st = st' := by
  have hcode : Cursor.code ⟨code, 0, 0⟩ = code :=
    Cursor.code_eq (t := []) (by simp) h.ne_semicolon (fun _ h => nomatch h)
  rw [← hcode] at h h'
  obtain ⟨-, hl, hw⟩ := Cursor.reads_of_spelled h
  obtain ⟨-, hl', hw'⟩ := Cursor.reads_of_spelled h'
  cases st
  cases st'
  simp_all

/-! ## Both passes over a line -/

theorem Form.resolve_eq_ok_iff {labels : LabelTable} {line : Nat} {f : Form} {i : Instruction} :
    f.resolve labels line = .ok i ↔ f.written.resolve labels = some i := by
  cases f with
  | fixed j => simp [Form.resolve, Form.written, Written.resolve]
  | toLabel op h name span =>
    simp only [Form.resolve, Form.written, Written.resolve]
    rcases labels.get? name with _ | d <;> simp

/-- An instruction whose label, if it has one, is bound resolves. -/
theorem Written.resolve_isSome {labels : LabelTable} {w : Written}
    (h : ∀ op hop name, w = .toLabel op hop name → labels.get? name ≠ none) :
    ∃ i, w.resolve labels = some i := by
  cases w with
  | instr i => exact ⟨i, rfl⟩
  | toLabel op hop name =>
    obtain ⟨d, hd⟩ := Option.ne_none_iff_exists'.1 (h op hop name rfl)
    exact ⟨_, by rw [Written.resolve, hd, Option.map_some]⟩

/-- The assembler accepts exactly the lines of the grammar. The first pass records no error
for a line exactly when its code spells a statement whose label, if any, is new; it then
binds that label and lays out that instruction. The second pass, given a table that binds
every label the statement names, turns the instruction laid out into the one the statement
denotes, whose encoding has the size laid out for it. -/
theorem line_accepts_exactly_grammar :
    (∀ (s : Survey) (c : Cursor), (s.line c).errors = s.errors ↔
      ∃ st : Statement, st.SpelledBy c.code ∧ ∀ n, st.label = some n → s.labels.get? n = none) ∧
    (∀ (s : Survey) (c : Cursor) (st : Statement), st.SpelledBy c.code →
      (∀ n, st.label = some n → s.labels.get? n = none) →
      s.line c = s.advance c ∧ c.definedLabel? = st.label ∧ c.form?.map Form.written = st.written) ∧
    (∀ (c : Cursor) (st : Statement) (w : Written) (labels : LabelTable),
      st.SpelledBy c.code → st.written = some w →
      (∀ op hop name, w = .toLabel op hop name → labels.get? name ≠ none) →
      ∃ f i, c.form? = some f ∧ f.resolve labels c.line = .ok i ∧ w.resolve labels = some i ∧
        f.size = i.encode.length) := by
  refine ⟨fun s c => ⟨fun h => ?_, ?_⟩, fun s c st hst hnew => ?_,
    fun c st w labels hst hw hbound => ?_⟩
  · rcases Survey.line_cases s c with ⟨hr, hnew, -⟩ | ⟨d, hd⟩
    · obtain ⟨hl, -⟩ := (Cursor.reads_of_spelled (Cursor.spelled_of_reads hr)).2
      exact ⟨_, Cursor.spelled_of_reads hr, fun n hn => hnew n (hl ▸ hn)⟩
    · have := congrArg Array.size (hd.symm.trans h)
      simp at this
  · rintro ⟨st, hst, hnew⟩
    obtain ⟨hr, hl, -⟩ := Cursor.reads_of_spelled hst
    rw [Survey.line_of_reads hr (fun n hn => hnew n (hl ▸ hn))]
    rfl
  · obtain ⟨hr, hl, hform⟩ := Cursor.reads_of_spelled hst
    exact ⟨Survey.line_of_reads hr (fun n hn => hnew n (hl ▸ hn)), hl, hform⟩
  · obtain ⟨-, -, hform⟩ := Cursor.reads_of_spelled hst
    rw [hw] at hform
    obtain ⟨f, hf, rfl⟩ := Option.map_eq_some_iff.1 hform
    obtain ⟨i, hi⟩ := Written.resolve_isSome hbound
    have hres : f.resolve labels c.line = .ok i := Form.resolve_eq_ok_iff.2 hi
    exact ⟨f, i, hf, hres, hi, by rw [Instruction.length_encode, Form.size_of_resolve hres]⟩

theorem own_label_jump_spelled :
    (⟨some "l", some (.toLabel .jump rfl "l")⟩ : Statement).SpelledBy
      (Cursor.code ⟨"l: jmp l".toList, 0, 0⟩) := by
  have hl : LabelName ['l'] := ⟨⟨'l', [], rfl, .inl rfl, by simp⟩, fun r => by cases r <;> decide⟩
  have hcode : Cursor.code ⟨"l: jmp l".toList, 0, 0⟩ = ['l', ':', ' ', 'j', 'm', 'p', ' ', 'l'] := by
    decide
  rw [hcode]
  have hblank : Blanks [' '] := by simp [Blanks]; decide
  refine ⟨[], ['l', ':', ' '], ['j', 'm', 'p', ' ', 'l'], [], rfl, (fun _ h => nomatch h),
    .some hl hblank (by simp), ?_, (fun _ h => nomatch h)⟩
  exact .some (m := ['j', 'm', 'p']) (by decide) (.label rfl hblank (by simp) hl)

theorem own_label_jump_reads :
    (Survey.empty.line ⟨"l: jmp l".toList, 0, 0⟩).errors = Survey.empty.errors ∧
      ∃ f i, Cursor.form? ⟨"l: jmp l".toList, 0, 0⟩ = some f ∧
        f.resolve ⟨[("l", ⟨0, 0⟩)]⟩ 0 = .ok i ∧
        (Written.toLabel .jump rfl "l").resolve ⟨[("l", ⟨0, 0⟩)]⟩ = some i ∧
        f.size = i.encode.length :=
  ⟨(line_accepts_exactly_grammar.1 _ _).2 ⟨_, own_label_jump_spelled, fun _ _ => rfl⟩,
    line_accepts_exactly_grammar.2.2 _ _ _ _ own_label_jump_spelled rfl fun _ _ _ h => by
      cases h; decide⟩

end StackMachine
