import Mathlib
import StackMachine.Proofs.ByteAssembler
/-!
# The assembler over bytes assembles as the one over characters

`Program.compileChecked` reads each line twice with the byte-offset cursor, binding labels
and writing code as it goes; `Program.assemble` surveys the lines with `Cursor`, then resolves
the instructions it gathered. `Program.compileChecked_eq_assemble`: both give the same code
and labels, or the same errors in the same order, on every program.

The proof follows a line through both readers. `Asm.Ends x s Q` says that a step of a pass,
run from `s`, does not stop the program and ends as `Q` says; the readers of the line match
those of `Cursor` (`Lex.Matches`), so each step of a line is a step of `Cursor.head` or
`Cursor.instruction`. What a pass writes for an instruction is what `Labels.place` makes of
the line's `Form` (`Asm.putArgs_writes`): in the first pass a label stands for offset 0, so
as many bytes are written as the survey lays out (`Asm.line_surveys`); in the second, the
label is looked up (`Asm.line_resolves`). A pass is a fold of its lines, so the two passes
follow the survey and the resolution of its instructions (`foldlM_simulates`).
-/

namespace StackMachine

open Text

/-! ## Lines as `Cursor` reads them -/

namespace Cursor

variable {c next after : Cursor} {w : Word}

theorem head_of_nextWord?_none (hn : c.nextWord? = none) : c.head = .ok ⟨none, none⟩ := by
  simp [head, hn]

theorem head_of_word (hn : c.nextWord? = some (w, next)) (hcolon : ¬w.chars.getLast? = some ':') :
    c.head = .ok ⟨none, some (w, next)⟩ := by
  simp [head, hn, hcolon]

/-- A label definition spans the bytes of its name, the word without its colon. -/
theorem head_of_label (hn : c.nextWord? = some (w, next)) (hcolon : w.chars.getLast? = some ':') :
    c.head =
      if (!isName w.chars.dropLast || (Register.ofName? (String.ofList w.chars.dropLast)).isSome) then
        c.fail (.invalidLabel (String.ofList w.chars.dropLast))
          ⟨w.span.offset, byteLength w.chars.dropLast⟩
      else .ok ⟨some (String.ofList w.chars.dropLast, ⟨w.span.offset, byteLength w.chars.dropLast⟩),
        next.nextWord?⟩ := by
  obtain ⟨_, -, -, -, -, -, hspan, -, -⟩ := nextWord?_sound hn
  have hlen : w.span.length - 1 = byteLength w.chars.dropLast := by
    have hw : w.chars = w.chars.dropLast ++ [':'] := by
      rw [← List.dropLast_append_getLast? _ hcolon]
      simp
    rw [hspan]
    dsimp only
    rw [hw, byteLength_append, byteLength_singleton, List.dropLast_concat]
    rfl
  simp only [head, hn, if_pos hcolon, hlen]

theorem instruction_unknown (hop : Opcode.ofMnemonic? w.text = none) :
    c.instruction w = .error ⟨.unknownMnemonic w.text, c.line, w.span⟩ := by
  simp [instruction, hop, fail]

/-- The instruction a line reads is the one its operand makes with its opcode. -/
theorem form_of_instruction {op : Opcode} {read : Option (OperandSyntax × Cursor)} {f : Form}
    (hf : c.instruction w = .ok f) (hop : Opcode.ofMnemonic? w.text = some op)
    (hread : c.operand? = .ok read) : c.form op w.span (read.map (·.1)) = .ok f := by
  obtain ⟨op', read', hop', hread', hform, -⟩ := instruction_eq_ok_iff.1 hf
  rw [hop] at hop'
  cases hop'
  rw [hread] at hread'
  cases hread'
  exact hform

/-- A line that reads reads the instruction after its mnemonic. -/
theorem instruction_of_reads {label : Option (String × Span)} (hr : c.Reads)
    (hh : c.head = .ok ⟨label, some (w, after)⟩) : ∃ f, after.instruction w = .ok f := by
  simp only [Reads, hh] at hr
  rcases hi : after.instruction w with d | f
  · simp [hi, Except.toOption] at hr
  · exact ⟨f, rfl⟩

theorem nextWord?_getD_skipBlanks {α : Type} (r : Option (α × Cursor)) (c : Cursor) :
    ((r.map (·.2)).getD c.skipBlanks).nextWord? = ((r.map (·.2)).getD c).nextWord? := by
  cases r with
  | none => exact nextWord?_skipBlanks c
  | some _ => rfl

end Cursor

/-- The survey after a line's instruction reads as `r`: its error noted, or the instruction laid
out at the current size. -/
def Survey.lay (s : Survey) (line : Nat) (r : Except Diagnostic Form) : Survey :=
  match r with
  | .error d => s.reject d
  | .ok f => { s with size := s.size + f.size, forms := s.forms.push (line, f) }

namespace Survey

variable {s : Survey} {c after : Cursor} {w : Word}

theorem line_of_mnemonic (hh : c.head = .ok ⟨none, some (w, after)⟩) :
    s.line c = s.lay c.line (after.instruction w) := by
  rcases hi : after.instruction w with d | f <;> simp [line, lay, hh, hi]

theorem line_of_label_mnemonic {name : String} {span : Span} {t : LabelTable}
    (hh : c.head = .ok ⟨some (name, span), some (w, after)⟩)
    (hins : s.labels.insert name ⟨s.size.toUInt32, c.line⟩ = .ok t) :
    s.line c = { s with labels := t }.lay c.line (after.instruction w) := by
  rcases hi : after.instruction w with d | f <;> simp [line, lay, hh, hins, hi]

end Survey

/-! ## What a pass writes for an instruction -/

theorem admits_imm {op : Opcode} (h : op.operandClass = .target) (v : Int32) :
    op.operandClass.admits (Operand.imm v).mode = true := by
  rw [h]
  rfl

/-- The instruction a pass writes for an instruction a line reads as `f`: in the first pass a
label operand stands for offset 0, in the second for the offset the table binds it to. -/
def Labels.place (labels : Labels) (line : Nat) : Form → Except Diagnostic Instruction
  | .fixed i => .ok i
  | .toLabel op h name span =>
    match labels with
    | .deferred => .ok (Instruction.make op (.imm 0) (admits_imm h 0))
    | .resolved table => (Form.toLabel op h name span).resolve table line

/-- The instruction a line reads after an opcode is one of that opcode: complete, or with a
label operand. -/
theorem Cursor.form_eq_ok_cases {c : Cursor} {op : Opcode} {sp : Span}
    {o? : Option OperandSyntax} {f : Form} (hf : c.form op sp o? = .ok f) :
    (∃ o h, f = .fixed (Instruction.make op o h)) ∨ ∃ h name span, f = .toLabel op h name span := by
  cases o? with
  | none =>
    obtain ⟨h, rfl⟩ := Cursor.form_none_eq_ok_iff.1 hf
    exact .inl ⟨_, h, rfl⟩
  | some raw =>
    rcases Cursor.form_some_eq_ok_iff.1 hf with ⟨o, h, -, rfl⟩ | ⟨name, h, -, -, rfl⟩
    · exact .inl ⟨o, h, rfl⟩
    · exact .inr ⟨h, name, _, rfl⟩

namespace Labels

variable {labels : Labels} {line : Nat} {f : Form} {i : Instruction}

/-- A pass writes as many bytes for an instruction as the first pass lays out for it. -/
theorem place_size (hi : labels.place line f = .ok i) : i.size = f.size := by
  cases labels with
  | deferred =>
    cases f with
    | fixed j =>
      cases hi
      rfl
    | toLabel op h name span =>
      cases hi
      simp [Instruction.size, Form.size]
  | resolved table => exact Form.size_of_resolve hi

/-- A pass writes an instruction of the opcode the line names. -/
theorem place_opcode {c : Cursor} {op : Opcode} {sp : Span} {o? : Option OperandSyntax}
    (hf : c.form op sp o? = .ok f) (hi : labels.place line f = .ok i) : i.opcode = op := by
  rcases Cursor.form_eq_ok_cases hf with ⟨o, h, rfl⟩ | ⟨h, name, span, rfl⟩
  · cases hi
    exact Instruction.opcode_make _ _ _
  cases labels with
  | deferred =>
    cases hi
    exact Instruction.opcode_make _ _ _
  | resolved table =>
    simp only [place, Form.resolve] at hi
    split at hi
    · cases hi
      exact Instruction.opcode_make _ _ _
    · cases hi

/-- The first pass writes an instruction for every one a line reads. -/
theorem deferred_place_ne_error (d : Diagnostic) : Labels.deferred.place line f ≠ .error d := by
  cases f <;> simp [place]

end Labels

/-! ## How a step of a pass ends -/

namespace Asm

variable {α β : Type} {s : PassState}

/-- The outcome `r` as the end of a step at `s`. -/
def resultOf {α : Type} (r : Except Diagnostic α) (s : PassState) :
    EStateM.Result LexStop PassState α :=
  match r with
  | .ok a => .ok a s
  | .error d => .error (.error d) s

/-- Run from `s`, the step does not stop the program, and `Q` holds of how it ends, with a
result or with the line's error, and of the state it leaves. -/
def Ends (x : Asm α) (s : PassState) (Q : Except Diagnostic α → PassState → Prop) : Prop :=
  match x.run s with
  | .ok a s' => Q (.ok a) s'
  | .error (.error d) s' => Q (.error d) s'
  | .error (.panic _) _ => False

variable {Q : Except Diagnostic β → PassState → Prop}

theorem ends_of_run_ok {x : Asm β} {b : β} {s' : PassState} (hrun : x.run s = .ok b s')
    (hq : Q (.ok b) s') : x.Ends s Q := by
  unfold Ends
  rw [hrun]
  exact hq

theorem ends_of_run_error {x : Asm β} {d : Diagnostic} {s' : PassState}
    (hrun : x.run s = .error (.error d) s') (hq : Q (.error d) s') : x.Ends s Q := by
  unfold Ends
  rw [hrun]
  exact hq

theorem Ends.mono {x : Asm β} {P : Except Diagnostic β → PassState → Prop} (hx : x.Ends s P)
    (h : ∀ r s', P r s' → Q r s') : x.Ends s Q := by
  unfold Ends at hx ⊢
  rcases hrun : x.run s with ⟨b, s'⟩ | ⟨e, s'⟩
  · rw [hrun] at hx
    exact h _ _ hx
  · rw [hrun] at hx
    rcases e with d | p
    · exact h _ _ hx
    · exact hx

theorem ends_pure (b : β) (hq : Q (.ok b) s) : (pure b : Asm β).Ends s Q :=
  ends_of_run_ok rfl hq

theorem ends_failAt (e : AsmError) (sp : Span) (hq : Q (.error ⟨e, s.cursor.line, sp⟩) s) :
    (failAt e sp : Asm β).Ends s Q :=
  ends_of_run_error rfl hq

theorem ends_bind_of_run_ok {x : Asm α} {f : α → Asm β} {a : α} {s' : PassState}
    (hrun : x.run s = .ok a s') (hf : (f a).Ends s' Q) : (x >>= f).Ends s Q := by
  unfold Ends at hf ⊢
  rw [EStateM.run_bind, hrun]
  exact hf

theorem ends_bind_of_run_error {x : Asm α} {f : α → Asm β} {d : Diagnostic} {s' : PassState}
    (hrun : x.run s = .error (.error d) s') (hq : Q (.error d) s') : (x >>= f).Ends s Q := by
  unfold Ends
  rw [EStateM.run_bind, hrun]
  exact hq

theorem ends_failAt_bind {f : α → Asm β} (e : AsmError) (sp : Span)
    (hq : Q (.error ⟨e, s.cursor.line, sp⟩) s) : (failAt e sp >>= f).Ends s Q :=
  ends_bind_of_run_error rfl hq

/-- A reader of the line that matches a reader of `Cursor` with a result, then the next step,
from any byte cursor that stands for the cursor the reader gives. -/
theorem ends_lex_bind {x : Lex α} {f : α → Asm β} {a : α} {c : Cursor}
    (hx : x.Matches s.cursor (.ok (a, c)))
    (hf : ∀ n, ({ s.cursor with point := n } : ByteCursor).Agrees c →
      (f a).Ends { s with cursor := { s.cursor with point := n } } Q) :
    (lex x >>= f).Ends s Q := by
  obtain ⟨n, hrun, hagree⟩ := hx
  have hnext := hf n hagree
  unfold Ends at hnext ⊢
  rw [EStateM.run_bind, run_lex, hrun]
  exact hnext

/-- A reader of the line that matches a reader of `Cursor` with the line's error. -/
theorem ends_lex_bind_error {x : Lex α} {f : α → Asm β} {d : Diagnostic}
    (hx : x.Matches s.cursor (.error d))
    (hq : ∀ n, Q (.error d) { s with cursor := { s.cursor with point := n } }) :
    (lex x >>= f).Ends s Q := by
  obtain ⟨n, hrun, -⟩ := hx
  unfold Ends
  rw [EStateM.run_bind, run_lex, hrun]
  exact hq n

/-! ## The instruction of a line -/

/-- Choosing an operand ends as reading the instruction after the opcode does, then taking the
operand of what the pass writes for it. -/
theorem chooseOperand_run_eq_form (labels : Labels) (op : Opcode) (sp : Span)
    (o? : Option OperandSyntax) {c : Cursor} (hline : s.cursor.line = c.line) :
    (chooseOperand labels op sp o?).run s =
      resultOf ((c.form op sp o?).bind fun f => (labels.place c.line f).map Instruction.operand) s := by
  unfold Cursor.form Cursor.fail
  rw [← hline]
  -- one case for each branch of `Cursor.form`, against the same branch of `chooseOperand`
  split
  case h_1 hc | h_2 hc =>
    unfold chooseOperand
    simp [hc, resultOf, Labels.place, Except.bind, Except.map]
  case h_3 hn hs =>
    unfold chooseOperand
    dsimp only
    split
    · exact (hn ‹_›).elim
    · exact (hs ‹_›).elim
    · rfl
  case h_4 hc =>
    unfold chooseOperand
    simp [hc, resultOf]
    rfl
  case h_5 raw hc =>
    unfold chooseOperand target
    simp only [hc]
    by_cases hind : raw.indirect = true
    · simp only [hind, if_true]
      rfl
    simp only [hind, if_false, Bool.false_eq_true]
    rcases harg : raw.arg with v | r | name
    · simp [resultOf, Labels.place, Except.bind, Except.map]
    · rfl
    cases labels with
    | deferred => simp [resultOf, Labels.place, Except.bind, Except.map]
    | resolved table =>
      simp only [Labels.place, Form.resolve]
      rcases hget : table.get? name with _ | d
      · simp [resultOf, Except.bind, Except.map, hget]
        rfl
      · simp [resultOf, Except.bind, Except.map, hget]
  case h_6 raw hn ht =>
    unfold chooseOperand
    dsimp only
    split
    · exact (hn ‹_›).elim
    · exact (ht ‹_›).elim
    all_goals
      rcases hd : raw.direct? with _ | o
      · rfl
      · dsimp only
        by_cases hadm : op.operandClass.admits o.mode = true
        · simp [hadm, resultOf, Labels.place, Except.bind, Except.map]
        · simp only [hadm, if_false, Bool.false_eq_true]
          rfl

/-- The step ended as the outcome `r` of an instruction says: with its error, or having written
its code after the code written so far. It binds no label. -/
def Writes (r : Except Diagnostic Instruction) (s : PassState) (o : Except Diagnostic Unit)
    (s' : PassState) : Prop :=
  s'.table = s.table ∧
    match r with
    | .ok i => o = .ok () ∧ s'.out = s.out ++ i.encode
    | .error d => o = .error d ∧ s'.out = s.out

/-- Writing the instruction after a mnemonic ends as reading the instruction, then placing it:
with the line's error, or with its code written. The second pass looks a label up before it
checks the rest of the line, so there the two agree on lines whose instruction reads. -/
theorem putArgs_writes {labels : Labels} {op : Opcode} {w : Word} {after : Cursor}
    {st : PassState} (h : st.cursor.Agrees after) (hop : Opcode.ofMnemonic? w.text = some op)
    (hsure : labels = .deferred ∨ ∃ f, after.instruction w = .ok f) :
    (putArgs labels op w.span).Ends st
      (Writes ((after.instruction w).bind (labels.place after.line)) st) := by
  have hline : st.cursor.line = after.line := h.1
  have hm := Lex.readOperand_matches h
  unfold putArgs
  rcases hread : after.operand? with d | read
  · rw [hread] at hm
    refine ends_lex_bind_error hm fun n => ?_
    simp [Writes, Cursor.instruction, hop, hread, bind, Except.bind]
  rw [hread] at hm
  simp only [Except.map] at hm
  refine ends_lex_bind hm fun n h₁ => ?_
  have hchoose := chooseOperand_run_eq_form labels op w.span (read.map (·.1))
    (s := { st with cursor := { st.cursor with point := n } }) hline
  rcases hform : after.form op w.span (read.map (·.1)) with d | f
  · rw [hform] at hchoose
    refine ends_bind_of_run_error hchoose ?_
    simp [Writes, Cursor.instruction, hop, hread, hform, bind, Except.bind]
  rw [hform] at hchoose
  rcases hplace : labels.place after.line f with d | i
  · -- a label that is not bound: only in the second pass, on a line that reads
    simp only [resultOf, Except.bind, hplace, Except.map] at hchoose
    refine ends_bind_of_run_error hchoose ?_
    rcases hsure with rfl | ⟨f', hf'⟩
    · exact (Labels.deferred_place_ne_error d hplace).elim
    have hform' := Cursor.form_of_instruction hf' hop hread
    rw [hform] at hform'
    cases hform'
    simp [Writes, hf', Except.bind, hplace]
  simp only [resultOf, Except.bind, hplace, Except.map] at hchoose
  refine ends_bind_of_run_ok hchoose ?_
  have hnw := Lex.nextWord_matches h₁
  rw [Cursor.nextWord?_getD_skipBlanks] at hnw
  refine ends_lex_bind hnw fun m h₂ => ?_
  rcases hnext : ((read.map (·.2)).getD after).nextWord? with _ | ⟨extra, after'⟩
  · have hinstr : after.instruction w = .ok f :=
      Cursor.instruction_eq_ok_iff.2 ⟨op, read, hop, hread, hform, hnext⟩
    have hopi := Labels.place_opcode hform hplace
    subst hopi
    simp only [hnext, Option.map_none]
    refine ends_bind_of_run_ok (newInstruction_run i.admits _) ?_
    refine ends_of_run_ok (EStateM.run_modify _ _) ?_
    simp [Writes, hinstr, Except.bind, hplace, Instruction.make_opcode_operand]
  · simp only [hnext, Option.map_some, Option.getD_some] at h₂ ⊢
    obtain ⟨_, -, -, -, -, -, hspan, -, -⟩ := Cursor.nextWord?_sound hnext
    have hcb := Lex.checkBrackets_matches (w := extra) (by rw [hspan]) h₂
    rw [Cursor.checkBrackets_of_line (h₂.1.symm.trans hline)] at hcb
    have hinstr : ∀ r, after.checkBrackets extra = r → after.instruction w =
        r.bind fun _ => after.fail (.trailingInput extra.text) extra.span := by
      rintro r rfl
      simp [Cursor.instruction, hop, hread, hform, hnext, bind, Except.bind]
    rcases hc : after.checkBrackets extra with e | ⟨⟩
    · rw [hc] at hcb
      refine ends_lex_bind_error hcb fun k => ?_
      simp [Writes, hinstr _ hc, Except.bind]
    · rw [hc] at hcb
      refine ends_lex_bind hcb fun k _ => ends_failAt _ _ ?_
      simp [Writes, hinstr _ hc, Except.bind, Cursor.fail, hline]

/-- A mnemonic that names no opcode is the line's error, as it is when the line is read. -/
theorem unknownMnemonic_writes (labels : Labels) {w : Word} {after : Cursor} {st : PassState}
    (h : st.cursor.Agrees after) (hop : Opcode.ofMnemonic? w.text = none) :
    (failAt (.unknownMnemonic w.text) w.span : Asm Unit).Ends st
      (Writes ((after.instruction w).bind (labels.place after.line)) st) := by
  refine ends_failAt _ _ ?_
  rw [Cursor.instruction_unknown hop, ← h.1]
  exact ⟨rfl, rfl, rfl⟩

end Asm

/-! ## A line of each pass -/

/-- What a pass has after a line that ended as `o` in state `s`: the labels and the code of `s`,
and the line's error after those of the lines before. -/
def PassResult.record (acc : PassResult) (o : Except Diagnostic Unit) (s : PassState) :
    PassResult :=
  match o with
  | .ok _ => { acc with table := s.table, out := s.out }
  | .error d => ⟨s.table, s.out, acc.errors ++ [d]⟩

/-- The first pass over bytes has what the survey of the lines has: the same labels, as much
code as the survey's instructions take, and the same errors. -/
def PassResult.Surveys (r : PassResult) (sv : Survey) : Prop :=
  r.table = sv.labels ∧ r.out.length = sv.size ∧ r.errors = sv.errors.toList

/-- What the second pass makes of the instruction `x.2` of line `x.1`: its code with its label
looked up in `table`, or the error of a label `table` does not bind. -/
def PassResult.resolveForm (table : LabelTable) (acc : PassResult) (x : Nat × Form) :
    PassResult :=
  match x.2.resolve table x.1 with
  | .ok i => { acc with out := acc.out ++ i.encode }
  | .error d => { acc with errors := acc.errors ++ [d] }

/-- What the second pass makes of a line that reads: nothing, or what it makes of the line's
instruction. -/
def PassResult.resolveLine (table : LabelTable) (acc : PassResult) (c : Cursor) : PassResult :=
  match c.form? with
  | none => acc
  | some f => acc.resolveForm table (c.line, f)

namespace Asm

variable {s : PassState}

theorem define_deferred_ok (name : String) (sp : Span) {t : LabelTable}
    (hins : s.table.insert name ⟨s.out.length.toUInt32, s.cursor.line⟩ = .ok t) :
    (define .deferred name sp).run s = .ok () { s with table := t } := by
  simp [define, hins]

theorem define_deferred_error (name : String) (sp : Span) {prior : LabelDef}
    (hins : s.table.insert name ⟨s.out.length.toUInt32, s.cursor.line⟩ = .error prior) :
    (define .deferred name sp).run s =
      .error (.error ⟨.duplicateLabel name prior.line, s.cursor.line, sp⟩) s := by
  simp [define, hins]

/-- An instruction the first pass writes as a line reads it, as the survey lays it out. -/
theorem surveys_lay {acc : PassResult} {sv : Survey} {s' : PassState}
    {o : Except Diagnostic Unit} {line : Nat} {r : Except Diagnostic Form}
    (hw : Writes (r.bind (Labels.deferred.place line)) s o s') (ht : s.table = sv.labels)
    (hout : s.out.length = sv.size) (herr : acc.errors = sv.errors.toList) :
    (acc.record o s').Surveys (sv.lay line r) := by
  obtain ⟨ht', hw⟩ := hw
  rcases r with d | f
  · obtain ⟨rfl, hout'⟩ := hw
    simp [PassResult.record, PassResult.Surveys, Survey.lay, Survey.reject, ht', ht, hout', hout,
      herr]
  · rcases hplace : Labels.deferred.place line f with d | i
    · exact (Labels.deferred_place_ne_error d hplace).elim
    simp only [Except.bind, hplace] at hw
    obtain ⟨rfl, hout'⟩ := hw
    simp [PassResult.record, PassResult.Surveys, Survey.lay, ht', ht, hout', hout, herr,
      Labels.place_size hplace]

/-- A line of the first pass binds what the survey binds, writes as much code as the survey
lays out, and ends with the error the survey notes. -/
theorem line_surveys {acc : PassResult} {sv : Survey} {bc : ByteCursor} {c : Cursor}
    (hacc : acc.Surveys sv) (h : bc.Agrees c) :
    (line .deferred).Ends ⟨bc, acc.table, acc.out⟩ fun o s' =>
      (acc.record o s').Surveys (sv.line c) := by
  obtain ⟨htable, hsize, herrors⟩ := hacc
  have hline : bc.line = c.line := h.1
  unfold line
  refine ends_lex_bind (Lex.nextWord_matches h) fun n h₁ => ?_
  rcases hn : c.nextWord? with _ | ⟨first, next⟩
  · refine ends_pure _ ?_
    simp [PassResult.record, PassResult.Surveys, Survey.line, Cursor.head_of_nextWord?_none hn,
      htable, hsize, herrors]
  simp only [hn, Option.map_some, Option.getD_some] at h₁ ⊢
  unfold mnemonicWord
  by_cases hcolon : first.chars.getLast? = some ':'
  · have hhead := Cursor.head_of_label hn hcolon
    rw [if_pos hcolon]
    dsimp only
    split
    · rename_i hbad
      rw [bind_assoc]
      refine ends_failAt_bind _ _ ?_
      rw [if_pos hbad] at hhead
      simp [PassResult.record, PassResult.Surveys, Survey.line, hhead, Survey.reject, Cursor.fail,
        htable, hsize, herrors, hline]
    rename_i hgood
    rw [if_neg hgood] at hhead
    rw [bind_assoc]
    have hins' : ∀ r, sv.labels.insert (String.ofList first.chars.dropLast)
        ⟨sv.size.toUInt32, c.line⟩ = r → acc.table.insert (String.ofList first.chars.dropLast)
          ⟨acc.out.length.toUInt32, bc.line⟩ = r := by
      rintro r rfl
      rw [htable, hsize, hline]
    rcases hins : sv.labels.insert (String.ofList first.chars.dropLast) ⟨sv.size.toUInt32, c.line⟩
      with prior | t
    · refine ends_bind_of_run_error (define_deferred_error _ _ (hins' _ hins)) ?_
      simp [PassResult.record, PassResult.Surveys, Survey.line, hhead, hins, Survey.reject,
        htable, hsize, herrors, hline]
    refine ends_bind_of_run_ok (define_deferred_ok _ _ (hins' _ hins)) ?_
    refine ends_lex_bind (Lex.nextWord_matches h₁) fun m h₂ => ?_
    rcases hn₂ : next.nextWord? with _ | ⟨w, after⟩
    · refine ends_pure _ ?_
      simp [PassResult.record, PassResult.Surveys, Survey.line, hhead, hins, hn₂, hsize, herrors]
    simp only [hn₂, Option.map_some, Option.getD_some] at h₂ ⊢
    rw [Survey.line_of_label_mnemonic (hn₂ ▸ hhead) hins]
    rcases hop : Opcode.ofMnemonic? w.text with _ | op
    · refine (unknownMnemonic_writes .deferred h₂ hop).mono fun o s' hw => ?_
      exact surveys_lay hw rfl hsize herrors
    · refine (putArgs_writes h₂ hop (.inl rfl)).mono fun o s' hw => ?_
      exact surveys_lay hw rfl hsize herrors
  · rw [if_neg hcolon, pure_bind]
    dsimp only
    rw [Survey.line_of_mnemonic (Cursor.head_of_word hn hcolon)]
    rcases hop : Opcode.ofMnemonic? first.text with _ | op
    · refine (unknownMnemonic_writes .deferred h₁ hop).mono fun o s' hw => ?_
      exact surveys_lay hw htable hsize herrors
    · refine (putArgs_writes h₁ hop (.inl rfl)).mono fun o s' hw => ?_
      exact surveys_lay hw htable hsize herrors

/-- The second pass writes an instruction of a line as it resolves it. -/
theorem record_of_writes {acc : PassResult} {table : LabelTable} {line : Nat} {f : Form}
    {bc : ByteCursor} {o : Except Diagnostic Unit} {s' : PassState}
    (hw : Writes (f.resolve table line) ⟨bc, acc.table, acc.out⟩ o s') :
    acc.record o s' = acc.resolveForm table (line, f) := by
  obtain ⟨ht, hw⟩ := hw
  unfold PassResult.resolveForm
  rcases hres : f.resolve table line with d | i <;> rw [hres] at hw <;> obtain ⟨rfl, hout⟩ := hw
  · simp [PassResult.record, ht, hout]
  · simp [PassResult.record, ht, hout]

theorem resolveLine_of_instruction {acc : PassResult} {table : LabelTable} {c after : Cursor}
    {label : Option (String × Span)} {w : Word} {f : Form}
    (hh : c.head = .ok ⟨label, some (w, after)⟩) (hf : after.instruction w = .ok f) :
    acc.resolveLine table c = acc.resolveForm table (c.line, f) := by
  simp [PassResult.resolveLine, Cursor.form?, hh, hf, Except.toOption]

/-- A line of the second pass that reads writes the code of its instruction with the label
looked up, or ends with the error of a label the table does not bind. -/
theorem line_resolves {table : LabelTable} {acc : PassResult} {bc : ByteCursor} {c : Cursor}
    (hr : c.Reads) (h : bc.Agrees c) :
    (line (.resolved table)).Ends ⟨bc, acc.table, acc.out⟩ fun o s' =>
      acc.record o s' = acc.resolveLine table c := by
  have hline : bc.line = c.line := h.1
  unfold line
  refine ends_lex_bind (Lex.nextWord_matches h) fun n h₁ => ?_
  rcases hn : c.nextWord? with _ | ⟨first, next⟩
  · refine ends_pure _ ?_
    simp [PassResult.record, PassResult.resolveLine, Cursor.form?, Cursor.head_of_nextWord?_none hn]
  simp only [hn, Option.map_some, Option.getD_some] at h₁ ⊢
  unfold mnemonicWord
  by_cases hcolon : first.chars.getLast? = some ':'
  · have hhead := Cursor.head_of_label hn hcolon
    rw [if_pos hcolon]
    dsimp only
    split
    · rename_i hbad
      rw [if_pos hbad] at hhead
      simp [Cursor.Reads, hhead, Cursor.fail] at hr
    rename_i hgood
    rw [if_neg hgood] at hhead
    rw [bind_assoc]
    refine ends_bind_of_run_ok rfl ?_
    refine ends_lex_bind (Lex.nextWord_matches h₁) fun m h₂ => ?_
    rcases hn₂ : next.nextWord? with _ | ⟨w, after⟩
    · refine ends_pure _ ?_
      simp [PassResult.record, PassResult.resolveLine, Cursor.form?, hhead, hn₂]
    simp only [hn₂, Option.map_some, Option.getD_some] at h₂ ⊢
    rw [hn₂] at hhead
    obtain ⟨f, hf⟩ := Cursor.instruction_of_reads hr hhead
    obtain ⟨op, -, hop, -, -, -⟩ := Cursor.instruction_eq_ok_iff.1 hf
    simp only [hop]
    refine (putArgs_writes h₂ hop (.inr ⟨f, hf⟩)).mono fun o s' hw => ?_
    rw [hf] at hw
    rw [record_of_writes (h₂.1.symm ▸ hw), resolveLine_of_instruction hhead hf, hline]
  · rw [if_neg hcolon, pure_bind]
    dsimp only
    have hhead := Cursor.head_of_word hn hcolon
    obtain ⟨f, hf⟩ := Cursor.instruction_of_reads hr hhead
    obtain ⟨op, -, hop, -, -, -⟩ := Cursor.instruction_eq_ok_iff.1 hf
    simp only [hop]
    refine (putArgs_writes h₁ hop (.inr ⟨f, hf⟩)).mono fun o s' hw => ?_
    rw [hf] at hw
    rw [record_of_writes (h₁.1.symm ▸ hw), resolveLine_of_instruction hhead hf, hline]

end Asm

/-! ## The passes -/

/-- A line of a pass ends as reading it ends, and the pass records how. -/
theorem PassResult.line_of_ends {labels : Labels} {offsets : List Nat} {acc : PassResult}
    {text : String} {k base : Nat} {Q : Except Diagnostic Unit → PassState → Prop}
    (hbase : offsets[k]? = some base)
    (h : (Asm.line labels).Ends ⟨⟨text.toList, 0, k, base⟩, acc.table, acc.out⟩ Q) :
    ∃ o s', Q o s' ∧ PassResult.line labels offsets acc (text, k) = .ok (acc.record o s') := by
  unfold Asm.Ends at h
  unfold PassResult.line
  rw [hbase]
  dsimp only
  rcases hrun : (Asm.line labels).run ⟨⟨text.toList, 0, k, base⟩, acc.table, acc.out⟩ with
    ⟨a, s'⟩ | ⟨e, s'⟩
  · rw [hrun] at h
    exact ⟨.ok a, s', h, rfl⟩
  · rw [hrun] at h
    rcases e with d | p
    · exact ⟨.error d, s', h, rfl⟩
    · exact h.elim

/-- A line is read from the start of its text. -/
theorem agrees_start (text : String) (k base : Nat) :
    (⟨text.toList, 0, k, base⟩ : ByteCursor).Agrees (Cursor.start k base text) :=
  ⟨rfl, [], rfl, rfl, rfl⟩

/-- A fold whose every step succeeds and keeps a relation to a fold that cannot fail ends in
that relation to it. -/
theorem foldlM_simulates {ε α β γ : Type} {R : α → β → Prop} {f : α → γ → Except ε α}
    {g : β → γ → β} {l : List γ}
    (hstep : ∀ a b, ∀ x ∈ l, R a b → ∃ a', f a x = .ok a' ∧ R a' (g b x))
    {a : α} {b : β} (h : R a b) : ∃ a', l.foldlM f a = .ok a' ∧ R a' (l.foldl g b) := by
  induction l generalizing a b with
  | nil => exact ⟨a, rfl, h⟩
  | cons x l ih =>
    obtain ⟨a₁, hf, hR⟩ := hstep a b x List.mem_cons_self h
    obtain ⟨a', hfold, hR'⟩ :=
      ih (fun a b y hy => hstep a b y (List.mem_cons_of_mem x hy)) hR
    exact ⟨a', by rw [List.foldlM_cons, hf]; exact hfold, hR'⟩

theorem resolveAll_cons_error_of_ok {labels : LabelTable} {x : Nat × Form}
    {xs : List (Nat × Form)} {d : Diagnostic} {is : List Instruction}
    (hx : x.2.resolve labels x.1 = .error d) (hxs : resolveAll labels xs = .ok is) :
    resolveAll labels (x :: xs) = .error [d] := by
  unfold resolveAll at hxs ⊢
  simp only [List.map_cons, List.filterMap_cons, hx] at hxs ⊢
  split at hxs
  · rename_i hnil
    simp [List.isEmpty_iff.1 hnil]
  · cases hxs

theorem resolveAll_cons_error_of_error {labels : LabelTable} {x : Nat × Form}
    {xs : List (Nat × Form)} {d : Diagnostic} {ds : List Diagnostic}
    (hx : x.2.resolve labels x.1 = .error d) (hxs : resolveAll labels xs = .error ds) :
    resolveAll labels (x :: xs) = .error (d :: ds) := by
  unfold resolveAll at hxs ⊢
  simp only [List.map_cons, List.filterMap_cons, hx] at hxs ⊢
  split at hxs
  · cases hxs
  · cases hxs
    rfl

/-- Over instructions that all resolve, the second pass writes their code. -/
theorem foldl_resolveForm_of_forall₂ {table : LabelTable} {xs : List (Nat × Form)}
    {is : List Instruction} (h : List.Forall₂ (fun x i => x.2.resolve table x.1 = .ok i) xs is)
    (acc : PassResult) :
    xs.foldl (PassResult.resolveForm table) acc =
      { acc with out := acc.out ++ is.flatMap Instruction.encode } := by
  induction h generalizing acc with
  | nil => simp
  | @cons x i xs is hx _ ih =>
    rw [List.foldl_cons, PassResult.resolveForm, hx]
    dsimp only
    rw [ih]
    simp

/-- Over instructions some of which do not resolve, the second pass notes the errors of
resolving them. -/
theorem foldl_resolveForm_errors {table : LabelTable} {xs : List (Nat × Form)}
    {ds : List Diagnostic} (h : resolveAll table xs = .error ds) (acc : PassResult) :
    (xs.foldl (PassResult.resolveForm table) acc).errors = acc.errors ++ ds := by
  induction xs generalizing acc ds with
  | nil => cases h
  | cons x xs ih =>
    rw [List.foldl_cons]
    rcases hx : x.2.resolve table x.1 with d | i
    · have hstep : acc.resolveForm table x = { acc with errors := acc.errors ++ [d] } := by
        rw [PassResult.resolveForm, hx]
      rw [hstep]
      rcases hxs : resolveAll table xs with ds' | is
      · rw [resolveAll_cons_error_of_error hx hxs] at h
        cases h
        rw [ih hxs]
        simp
      · rw [resolveAll_cons_error_of_ok hx hxs] at h
        cases h
        rw [foldl_resolveForm_of_forall₂ (resolveAll_eq_ok_iff.1 hxs)]
    · have hstep : acc.resolveForm table x = { acc with out := acc.out ++ i.encode } := by
        rw [PassResult.resolveForm, hx]
      rw [hstep, ih]
      rw [resolveAll_cons_of_ok hx] at h
      rcases hxs : resolveAll table xs with ds' | is
      · rw [hxs] at h
        cases h
        rfl
      · rw [hxs] at h
        cases h

/-- The second pass over the lines makes of their instructions what it makes of each. -/
theorem foldl_resolveLine (table : LabelTable) (cs : List Cursor) (acc : PassResult) :
    cs.foldl (PassResult.resolveLine table) acc =
      (Cursor.emittedBy cs).foldl (PassResult.resolveForm table) acc := by
  induction cs generalizing acc with
  | nil => rfl
  | cons c cs ih =>
    rw [List.foldl_cons, ih, Cursor.emittedBy_cons]
    unfold PassResult.resolveLine
    rcases c.form? with _ | f <;> rfl

namespace Program

/-- Line `k` is read from its text, from its offset on. -/
theorem cursors_eq_zipIdx (p : Program) :
    p.cursors = p.lines.zipIdx.map fun e => Cursor.start e.2 (p.offsets.getD e.2 0) e.1 := by
  rw [cursors_eq]
  apply List.ext_getElem
  · simp
  · intro i h1 h2
    have hi : i < p.lines.length := by simpa using h2
    simp [List.getD_eq_getElem?_getD, hi]

theorem getElem?_offsets {p : Program} {e : String × Nat} (he : e ∈ p.lines.zipIdx) :
    p.offsets[e.2]? = some (p.offsets.getD e.2 0) := by
  have hlen : p.offsets.length = p.lines.length := length_offsetsFrom 0 p.lines
  have hlt := (List.mem_zipIdx' he).1
  rw [List.getD_eq_getElem?_getD, List.getElem?_eq_getElem (by omega)]
  rfl

/-- The first pass over bytes gathers what the survey of the lines gathers. -/
theorem pass_deferred_surveys (p : Program) :
    ∃ r, p.pass .deferred = .ok r ∧ r.Surveys p.survey := by
  rw [survey_eq, cursors_eq_zipIdx, List.foldl_map]
  refine foldlM_simulates (fun acc sv e he hacc => ?_) ⟨rfl, rfl, rfl⟩
  obtain ⟨o, s', hq, hline⟩ := PassResult.line_of_ends (getElem?_offsets he)
    (Asm.line_surveys hacc (agrees_start e.1 e.2 _))
  exact ⟨_, hline, hq⟩

/-- After a first pass with no error, the second pass over bytes makes of each line what
`PassResult.resolveLine` says. -/
theorem pass_resolved_eq (p : Program) (table : LabelTable) (hclean : p.survey.errors.size = 0) :
    p.pass (.resolved table) =
      .ok (p.cursors.foldl (PassResult.resolveLine table) ⟨LabelTable.empty, [], []⟩) := by
  have hreads := ((survey_clean_iff p).1 hclean).1
  rw [cursors_eq_zipIdx] at hreads
  rw [cursors_eq_zipIdx, List.foldl_map]
  have hstep : ∀ acc acc', ∀ e ∈ p.lines.zipIdx, acc = acc' →
      ∃ r, PassResult.line (.resolved table) p.offsets acc e = .ok r ∧
        r = acc'.resolveLine table (Cursor.start e.2 (p.offsets.getD e.2 0) e.1) := by
    rintro acc _ e he rfl
    obtain ⟨o, s', hq, hline⟩ := PassResult.line_of_ends (getElem?_offsets he)
      (Asm.line_resolves (hreads _ (List.mem_map_of_mem he)) (agrees_start e.1 e.2 _))
    exact ⟨_, hline, hq⟩
  obtain ⟨r, hpass, rfl⟩ := foldlM_simulates hstep rfl
  exact hpass

/-- Compiling over byte offsets gives what assembling over characters gives: the same code and
labels, or the same errors in the same order. -/
theorem compileChecked_eq_assemble (p : Program) :
    p.compileChecked = .ok (p.assemble.map fun a => (a.image, a.labels)) := by
  obtain ⟨first, h1, ht, -, he⟩ := p.pass_deferred_surveys
  unfold compileChecked assemble
  rw [h1]
  simp only [bind, Except.bind, pure, Except.pure, he, ht]
  by_cases hclean : p.survey.errors.size = 0
  · have hnil : p.survey.errors = #[] := Array.eq_empty_of_size_eq_zero hclean
    obtain ⟨-, hforms, -⟩ := survey_of_clean hclean
    rw [hnil, p.pass_resolved_eq _ hclean, foldl_resolveLine,
      show Cursor.emittedBy p.cursors = p.emitted from rfl, hforms]
    simp only [List.isEmpty_nil, Array.isEmpty_empty, Bool.not_true, Bool.false_eq_true, if_false]
    rcases hres : resolveAll p.survey.labels p.emitted with ds | is
    · have hne := (resolveAll_error_map hres).1
      have herr := foldl_resolveForm_errors hres ⟨LabelTable.empty, [], []⟩
      simp [herr, hne, Except.map]
    · rw [foldl_resolveForm_of_forall₂ (resolveAll_eq_ok_iff.1 hres)]
      simp [Except.map, Assembly.image, Assembly.payload]
  · have hne : p.survey.errors.isEmpty = false := by
      simpa [Array.isEmpty_iff_size_eq_zero] using hclean
    have hne' : p.survey.errors.toList.isEmpty = false := by
      simpa using hne
    simp [hne, hne', Except.map]

end Program

end StackMachine
