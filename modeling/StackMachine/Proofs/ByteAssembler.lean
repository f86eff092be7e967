import Mathlib
import StackMachine.Proofs.ByteCursor
/-!
# The assembler over byte offsets

The assembler reads each line with the byte-offset cursor of `ByteCursor`, and writes the code
as it goes: a pass keeps the label table it binds and the code it has written in a
`PassState`, next to the cursor. The first pass binds the labels and writes a placeholder for
each label operand; the second looks the labels up in the table of the first and writes the
code. Besides the errors of a line, a pass can stop the whole program: on a slice or a
subtraction of the cursor (`AsmPanic.slice`, `AsmPanic.underflow`), on a line with no offset
(`AsmPanic.lineOffset`), and on an instruction whose opcode's class does not take its operand
(`AsmPanic.mode`, the assertion of the instruction's constructor).

`Asm.Safe` says that a step of a pass does not stop the program and leaves the cursor on a
character boundary. Reading a line is safe from any boundary (`Asm.line_safe`): its readers
are (`Lex.nextWord_safe` and the others), the operand it chooses is one its opcode's class
takes (`Asm.chooseOperand_run`), and the word it checks for brackets spans its bytes
(`Lex.nextWord_span`). Every line has an offset, so both passes, and the whole compilation,
give a result (`Program.compileChecked_ok`, `assembler_never_panics`).
-/

namespace StackMachine

open Text

/-- Whether label operands can be looked up yet: not in the first pass, which binds the
labels; in the second, in the table the first pass built. -/
inductive Labels
  | deferred
  | resolved (table : LabelTable)

/-- What a pass carries while it reads a line: the cursor, the labels bound so far, and the
code written so far. -/
structure PassState where
  cursor : ByteCursor
  table : LabelTable
  out : List UInt8

/-- A step of a pass: it reads the line and may bind labels or write code; it may fail with
the line's error, or stop the program. -/
abbrev Asm := EStateM LexStop PassState

namespace Asm

/-- Runs a reader of the line on the pass's cursor. -/
def lex {α : Type} (x : Lex α) : Asm α := fun s =>
  match x.run s.cursor with
  | .ok a c => .ok a { s with cursor := c }
  | .error e c => .error e { s with cursor := c }

/-- The error `e` at `sp` of the line. -/
def failAt {α : Type} (e : AsmError) (sp : Span) : Asm α :=
  lex (Lex.fail e sp)

/-- The error for an operand the opcode does not take. -/
def invalidOperand {α : Type} (op : Opcode) (raw : OperandSyntax) : Asm α :=
  failAt (.invalidOperand op raw.word.text) raw.word.span

/-- Binds a label at the length of the code written so far, in the first pass; the second
binds nothing. -/
def define (labels : Labels) (name : String) (sp : Span) : Asm Unit :=
  match labels with
  | .resolved _ => pure ()
  | .deferred => do
    let s ← get
    match s.table.insert name ⟨s.out.length.toUInt32, s.cursor.line⟩ with
    | .ok t => set { s with table := t }
    | .error first => throw (.error ⟨.duplicateLabel name first.line, s.cursor.line, sp⟩)

/-- The operand of a jump or a call: an offset, or a label; in the first pass a label stands
for offset 0. -/
def target (labels : Labels) (op : Opcode) (raw : OperandSyntax) : Asm Operand :=
  if raw.indirect then invalidOperand op raw
  else
    match raw.arg with
    | .int v => pure (.imm v)
    | .reg _ => invalidOperand op raw
    | .label name =>
      match labels with
      | .deferred => pure (.imm 0)
      | .resolved table =>
        match table.get? name with
        | some d => pure (.imm d.ip.toInt32)
        | none => failAt (.unresolvedLabel name) raw.word.span

/-- The operand an opcode takes from what was read after it; `mnemonicSpan` is where the
mnemonic stands. -/
def chooseOperand (labels : Labels) (op : Opcode) (mnemonicSpan : Span) :
    Option OperandSyntax → Asm Operand
  | none =>
    match op.operandClass with
    | .nullary | .sink => pure .none
    | _ => failAt (.missingOperand op) mnemonicSpan
  | some raw =>
    match op.operandClass with
    | .nullary => failAt (.unexpectedOperand op) raw.word.span
    | .target => target labels op raw
    | .source | .sink =>
      match raw.direct? with
      | some o => if op.operandClass.admits o.mode then pure o else invalidOperand op raw
      | none => invalidOperand op raw

/-- The instruction of an opcode and an operand, which the opcode's class must take. -/
def newInstruction (op : Opcode) (o : Operand) : Asm Instruction :=
  if h : op.operandClass.admits o.mode then pure (Instruction.make op o h)
  else throw (.panic .mode)

/-- Reads the operand after a mnemonic and nothing but a comment after it, then writes the
instruction. -/
def putArgs (labels : Labels) (op : Opcode) (mnemonicSpan : Span) : Asm Unit := do
  let raw ← lex Lex.readOperand
  let operand ← chooseOperand labels op mnemonicSpan raw
  match ← lex Lex.nextWord with
  | some extra => do
    lex (Lex.checkBrackets extra)
    failAt (.trailingInput extra.text) extra.span
  | none => do
    let instr ← newInstruction op operand
    modify fun s => { s with out := s.out ++ instr.encode }

/-- The word that names the instruction: the first word, or the one after a label, which is
bound on the way; none for a line with only a label. -/
def mnemonicWord (labels : Labels) (first : Word) : Asm (Option Word) :=
  if first.chars.getLast? = some ':' then do
    let name := first.chars.dropLast
    let sp : Span := ⟨first.span.offset, byteLength name⟩
    if !isName name || (Register.ofName? (String.ofList name)).isSome then
      failAt (.invalidLabel (String.ofList name)) sp
    define labels (String.ofList name) sp
    lex Lex.nextWord
  else pure (some first)

/-- Reads one line: a label, an instruction, both, or neither. -/
def line (labels : Labels) : Asm Unit := do
  let some first ← lex Lex.nextWord | pure ()
  let some word ← mnemonicWord labels first | pure ()
  let some op := Opcode.ofMnemonic? word.text
    | failAt (.unknownMnemonic word.text) word.span
  putArgs labels op word.span

end Asm

/-- What a pass over the lines gives: the labels bound, the code written, and the lines'
errors in order. -/
structure PassResult where
  table : LabelTable
  out : List UInt8
  errors : List Diagnostic

/-- Reads line `entry.2`, whose text is `entry.1`, from the start of its offset in the program
text. A line's error is noted, with the labels it bound before it; a panic stops the pass. -/
def PassResult.line (labels : Labels) (offsets : List Nat) (acc : PassResult)
    (entry : String × Nat) : Except AsmPanic PassResult :=
  match offsets[entry.2]? with
  | none => .error .lineOffset
  | some base =>
    match (Asm.line labels).run ⟨⟨entry.1.toList, 0, entry.2, base⟩, acc.table, acc.out⟩ with
    | .ok _ s => .ok { acc with table := s.table, out := s.out }
    | .error (.error d) s => .ok ⟨s.table, s.out, acc.errors ++ [d]⟩
    | .error (.panic p) _ => .error p

/-- One pass over the program's lines. -/
def Program.pass (p : Program) (labels : Labels) : Except AsmPanic PassResult :=
  p.lines.zipIdx.foldlM (PassResult.line labels p.offsets) ⟨LabelTable.empty, [], []⟩

/-- Compiles a program as the assembler runs it: the first pass binds the labels, the second
writes the code; the errors of the first pass that has any are the result. A panic of either
pass is the outer error. -/
def Program.compileChecked (p : Program) :
    Except AsmPanic (Except CompileError (Image × LabelTable)) := do
  let first ← p.pass .deferred
  if !first.errors.isEmpty then return .error ⟨first.errors⟩
  let second ← p.pass (.resolved first.table)
  if !second.errors.isEmpty then return .error ⟨second.errors⟩
  return .ok (⟨second.out⟩, first.table)

namespace Asm

variable {α β : Type} {s : PassState}

/-! ## Steps that do not stop the program -/

/-- Run from `s`, the step does not stop the program, and it leaves the cursor on a character
boundary whether it gives a result or fails. -/
def Safe (x : Asm α) (s : PassState) : Prop :=
  match x.run s with
  | .ok _ s' => s'.cursor.OnBoundary
  | .error (.error _) s' => s'.cursor.OnBoundary
  | .error (.panic _) _ => False

theorem safe_of_run_ok {x : Asm α} {a : α} {s' : PassState} (hrun : x.run s = .ok a s')
    (h : s'.cursor.OnBoundary) : x.Safe s := by
  unfold Safe
  rw [hrun]
  exact h

theorem safe_of_run_error {x : Asm α} {d : Diagnostic} {s' : PassState}
    (hrun : x.run s = .error (.error d) s') (h : s'.cursor.OnBoundary) : x.Safe s := by
  unfold Safe
  rw [hrun]
  exact h

theorem Safe.bind {x : Asm α} {f : α → Asm β} (hx : x.Safe s)
    (hf : ∀ a s', x.run s = .ok a s' → s'.cursor.OnBoundary → (f a).Safe s') :
    (x >>= f).Safe s := by
  unfold Safe at hx ⊢
  rw [EStateM.run_bind]
  rcases hrun : x.run s with ⟨a, s'⟩ | ⟨e, s'⟩
  · rw [hrun] at hx
    have := hf a s' hrun hx
    unfold Safe at this
    exact this
  · rw [hrun] at hx
    rcases e with d | p <;> exact hx

theorem safe_pure (a : α) (h : s.cursor.OnBoundary) : (pure a : Asm α).Safe s :=
  safe_of_run_ok rfl h

theorem run_lex (x : Lex α) (s : PassState) :
    (lex x).run s = match x.run s.cursor with
      | .ok a c => .ok a { s with cursor := c }
      | .error e c => .error e { s with cursor := c } := rfl

theorem safe_lex {x : Lex α} (hx : x.Safe s.cursor) : (lex x).Safe s := by
  unfold Lex.Safe at hx
  unfold Safe
  rw [run_lex]
  rcases hrun : x.run s.cursor with ⟨a, c⟩ | ⟨e, c⟩
  · rw [hrun] at hx
    exact hx
  · rw [hrun] at hx
    rcases e with d | p <;> exact hx

/-- A step of the line's reader runs it on the cursor, and leaves the rest of the pass as it
is. -/
theorem run_lex_ok {x : Lex α} {a : α} {s' : PassState} (h : (lex x).run s = .ok a s') :
    x.run s.cursor = .ok a s'.cursor ∧ s'.table = s.table ∧ s'.out = s.out := by
  rw [run_lex] at h
  split at h
  · rename_i hrun
    cases h
    exact ⟨hrun, rfl, rfl⟩
  · cases h

theorem safe_failAt (e : AsmError) (sp : Span) (h : s.cursor.OnBoundary) :
    (failAt e sp : Asm α).Safe s :=
  safe_of_run_error rfl h

/-! ## The steps of a line -/

/-- Binding a label binds it or fails; it moves no cursor and writes no code. -/
theorem define_run (labels : Labels) (name : String) (sp : Span) (s : PassState) :
    (∃ t, (define labels name sp).run s = .ok () { s with table := t }) ∨
      ∃ d, (define labels name sp).run s = .error (.error d) s := by
  cases labels with
  | resolved _ => exact .inl ⟨s.table, rfl⟩
  | deferred =>
    unfold define
    rcases hins : s.table.insert name ⟨s.out.length.toUInt32, s.cursor.line⟩ with first | t
    · exact .inr ⟨⟨.duplicateLabel name first.line, s.cursor.line, sp⟩, by simp [hins]⟩
    · exact .inl ⟨t, by simp [hins]⟩

/-- A jump's or a call's operand is an immediate, or the line's error. -/
theorem target_run (labels : Labels) (op : Opcode) (raw : OperandSyntax) (s : PassState) :
    (∃ v, (target labels op raw).run s = .ok (.imm v) s) ∨
      ∃ d, (target labels op raw).run s = .error (.error d) s := by
  unfold target
  split
  · exact .inr ⟨_, rfl⟩
  split
  · exact .inl ⟨_, rfl⟩
  · exact .inr ⟨_, rfl⟩
  split
  · exact .inl ⟨_, rfl⟩
  split
  · exact .inl ⟨_, rfl⟩
  · exact .inr ⟨_, rfl⟩

/-- Every way of choosing the operand gives one the opcode's class takes, or the line's error;
it reads nothing and writes nothing. -/
theorem chooseOperand_run (labels : Labels) (op : Opcode) (sp : Span) (raw : Option OperandSyntax)
    (s : PassState) :
    (∃ o, op.operandClass.admits o.mode = true ∧
        (chooseOperand labels op sp raw).run s = .ok o s) ∨
      ∃ d, (chooseOperand labels op sp raw).run s = .error (.error d) s := by
  cases raw with
  | none =>
    unfold chooseOperand
    dsimp only
    split
    · rename_i hc
      exact .inl ⟨.none, by rw [hc]; rfl, rfl⟩
    · rename_i hc
      exact .inl ⟨.none, by rw [hc]; rfl, rfl⟩
    · exact .inr ⟨_, rfl⟩
  | some raw =>
    unfold chooseOperand
    dsimp only
    split
    · exact .inr ⟨_, rfl⟩
    · rename_i hc
      rcases target_run labels op raw s with ⟨v, hrun⟩ | ⟨d, hrun⟩
      · exact .inl ⟨.imm v, by rw [hc]; rfl, hrun⟩
      · exact .inr ⟨d, hrun⟩
    all_goals
      split
      · split
        · rename_i hadm
          exact .inl ⟨_, hadm, rfl⟩
        · exact .inr ⟨_, rfl⟩
      · exact .inr ⟨_, rfl⟩

theorem newInstruction_run {op : Opcode} {o : Operand} (h : op.operandClass.admits o.mode = true)
    (s : PassState) : (newInstruction op o).run s = .ok (Instruction.make op o h) s := by
  unfold newInstruction
  rw [dif_pos h]
  rfl

section Boundary

variable {labels : Labels} (h : s.cursor.OnBoundary)
include h

/-- Writing an instruction does not stop the program: the operand it was given is one its
opcode's class takes. -/
theorem putArgs_safe (op : Opcode) (sp : Span) : (putArgs labels op sp).Safe s := by
  unfold putArgs
  refine Safe.bind (safe_lex (Lex.readOperand_safe h)) fun raw s₁ _ hb₁ => ?_
  rcases chooseOperand_run labels op sp raw s₁ with ⟨o, hadm, hrun⟩ | ⟨d, hrun⟩
  · refine Safe.bind (safe_of_run_ok hrun hb₁) fun o' s₂ hrun₂ _ => ?_
    rw [hrun] at hrun₂
    obtain ⟨rfl, rfl⟩ := EStateM.Result.ok.inj hrun₂
    refine Safe.bind (safe_lex (Lex.nextWord_safe hb₁)) fun w s₃ hrun₃ hb₃ => ?_
    rcases w with _ | extra
    · refine Safe.bind (safe_of_run_ok (newInstruction_run hadm s₃) hb₃) fun i s₄ _ hb₄ => ?_
      exact safe_of_run_ok (EStateM.run_modify _ _) hb₄
    · have hw := Lex.nextWord_span hb₁ (run_lex_ok hrun₃).1
      refine Safe.bind (safe_lex (Lex.checkBrackets_safe hb₃ hw)) fun _ s₄ _ hb₄ => ?_
      exact safe_failAt _ _ hb₄
  · refine Safe.bind (safe_of_run_error hrun hb₁) fun o' s₂ hrun₂ _ => ?_
    rw [hrun] at hrun₂
    cases hrun₂

theorem mnemonicWord_safe (first : Word) : (mnemonicWord labels first).Safe s := by
  unfold mnemonicWord
  by_cases hcolon : first.chars.getLast? = some ':'
  · rw [if_pos hcolon]
    dsimp only
    split
    · exact Safe.bind (safe_failAt _ _ h) fun _ _ hrun _ => by cases hrun
    · have hdef : (define labels (String.ofList first.chars.dropLast)
          ⟨first.span.offset, byteLength first.chars.dropLast⟩).Safe s := by
        rcases define_run labels (String.ofList first.chars.dropLast)
          ⟨first.span.offset, byteLength first.chars.dropLast⟩ s with ⟨t, hrun⟩ | ⟨d, hrun⟩
        · exact safe_of_run_ok hrun h
        · exact safe_of_run_error hrun h
      exact Safe.bind hdef fun _ _ _ hb => safe_lex (Lex.nextWord_safe hb)
  · rw [if_neg hcolon]
    exact safe_pure _ h

/-- Reading a line does not stop the program. -/
theorem line_safe : (line labels).Safe s := by
  unfold line
  refine Safe.bind (safe_lex (Lex.nextWord_safe h)) fun first s₁ _ hb₁ => ?_
  rcases first with _ | first
  · exact safe_pure _ hb₁
  refine Safe.bind (mnemonicWord_safe hb₁ first) fun word s₂ _ hb₂ => ?_
  rcases word with _ | word
  · exact safe_pure _ hb₂
  dsimp only
  rcases Opcode.ofMnemonic? word.text with _ | op
  · exact safe_failAt _ _ hb₂
  · exact putArgs_safe hb₂ op word.span

end Boundary

end Asm

/-! ## Passes and the compilation -/

/-- A fold whose every step succeeds succeeds. -/
theorem foldlM_except_ok {ε β γ : Type} {f : β → γ → Except ε β} {l : List γ}
    (h : ∀ b, ∀ x ∈ l, ∃ b', f b x = .ok b') (init : β) : ∃ r, l.foldlM f init = .ok r := by
  induction l generalizing init with
  | nil => exact ⟨init, rfl⟩
  | cons x l ih =>
    obtain ⟨b, hb⟩ := h init x List.mem_cons_self
    obtain ⟨r, hr⟩ := ih (fun b' y hy => h b' y (List.mem_cons_of_mem x hy)) b
    exact ⟨r, by rw [List.foldlM_cons, hb]; exact hr⟩

/-- A line with an offset is read to its end or to its error; the pass goes on either way. -/
theorem PassResult.line_ok (labels : Labels) {offsets : List Nat} (acc : PassResult)
    {entry : String × Nat} (hidx : entry.2 < offsets.length) :
    ∃ acc', PassResult.line labels offsets acc entry = .ok acc' := by
  obtain ⟨base, hbase⟩ : ∃ base, offsets[entry.2]? = some base :=
    ⟨_, List.getElem?_eq_getElem hidx⟩
  have hsafe : (Asm.line labels).Safe ⟨⟨entry.1.toList, 0, entry.2, base⟩, acc.table, acc.out⟩ :=
    Asm.line_safe ⟨[], _, rfl, rfl⟩
  unfold PassResult.line
  rw [hbase]
  dsimp only
  unfold Asm.Safe at hsafe
  rcases hrun : (Asm.line labels).run ⟨⟨entry.1.toList, 0, entry.2, base⟩, acc.table, acc.out⟩ with
    ⟨a, s'⟩ | ⟨e, s'⟩
  · exact ⟨_, rfl⟩
  · rw [hrun] at hsafe
    rcases e with d | p
    · exact ⟨_, rfl⟩
    · exact hsafe.elim

/-- Every line has an offset, so a pass reads them all. -/
theorem Program.pass_ok (p : Program) (labels : Labels) : ∃ r, p.pass labels = .ok r := by
  have hlen : p.offsets.length = p.lines.length := length_offsetsFrom 0 p.lines
  unfold Program.pass
  refine foldlM_except_ok (fun acc entry hentry => PassResult.line_ok labels acc ?_) _
  rcases entry with ⟨text, idx⟩
  have hlt := (List.mem_zipIdx' hentry).1
  dsimp only
  omega

/-- Compiling never panics: both passes read every line. -/
theorem Program.compileChecked_ok (p : Program) : ∃ r, p.compileChecked = .ok r := by
  obtain ⟨first, h1⟩ := p.pass_ok .deferred
  obtain ⟨second, h2⟩ := p.pass_ok (.resolved first.table)
  unfold Program.compileChecked
  simp only [h1, h2, bind, Except.bind, pure, Except.pure]
  split_ifs <;> exact ⟨_, rfl⟩

/-- The operand a line chooses for an opcode is one the opcode's class takes. -/
theorem Asm.chooseOperand_admits {labels : Labels} {op : Opcode} {sp : Span}
    {raw : Option OperandSyntax} {s s' : PassState} {o : Operand}
    (h : (Asm.chooseOperand labels op sp raw).run s = .ok o s') :
    op.operandClass.admits o.mode = true := by
  rcases Asm.chooseOperand_run labels op sp raw s with ⟨o', hadm, hrun⟩ | ⟨d, hrun⟩
  · rw [hrun] at h
    obtain ⟨rfl, -⟩ := EStateM.Result.ok.inj h
    exact hadm
  · rw [hrun] at h
    cases h

/-- The assembler never panics. Compiling any program gives its image and labels or its compile
error. Run from a character boundary, each reader of a line gives its result or the line's
diagnostic and leaves the cursor on a character boundary: taking characters while a test
holds, skipping blanks, reading a word, a bracket or an operand, and moving past characters
ahead. A word `nextWord` reads spans its own bytes, so checking it for brackets from where
`nextWord` stopped is safe too: what is left of the span after a `[` does not go below zero.
The operand a line chooses is one the opcode's class takes, as the instruction's constructor
asserts. -/
theorem assembler_never_panics :
    (∀ p : Program, ∃ r, p.compileChecked = .ok r) ∧
    (∀ bc : ByteCursor, bc.OnBoundary →
      (∀ q, (Lex.takeWhile q).Safe bc) ∧ Lex.skipSpaces.Safe bc ∧ Lex.nextWord.Safe bc ∧
        Lex.detectBrackets.Safe bc ∧ Lex.readOperand.Safe bc ∧
        (∀ pre t d, bc.chars = pre ++ t ++ d → bc.point = byteLength pre →
          (Lex.advance (byteLength t)).Safe bc) ∧
        (∀ w bc', Lex.nextWord.run bc = .ok (some w) bc' →
          byteLength w.chars ≤ w.span.length ∧ (Lex.checkBrackets w).Safe bc')) ∧
    (∀ labels op sp raw (s s' : PassState) o,
      (Asm.chooseOperand labels op sp raw).run s = .ok o s' → op.operandClass.admits o.mode = true) := by
  refine ⟨Program.compileChecked_ok, fun bc hb => ?_, fun _ _ _ _ _ _ _ h => Asm.chooseOperand_admits h⟩
  refine ⟨Lex.takeWhile_safe hb, Lex.skipSpaces_safe hb, Lex.nextWord_safe hb,
    Lex.detectBrackets_safe hb, Lex.readOperand_safe hb, fun _ _ _ => Lex.advance_safe,
    fun w bc' hrun => ?_⟩
  have hb' : bc'.OnBoundary := by
    have := Lex.nextWord_safe hb
    unfold Lex.Safe at this
    rw [hrun] at this
    exact this
  have hw := Lex.nextWord_span hb hrun
  exact ⟨hw, Lex.checkBrackets_safe hb' hw⟩

/-- A cursor after the two-byte `é` of `é [x]`: the readers run from it leave it on a boundary,
the word `[x]` it reads spans its three bytes, and `[rax]` is an operand `pop` takes. -/
theorem assembler_never_panics_after_two_byte_char :
    let bc : ByteCursor := ⟨['é', ' ', '[', 'x', ']'], 2, 0, 10⟩
    let w : Word := ⟨['[', 'x', ']'], ⟨13, 3⟩⟩
    let raw : OperandSyntax := ⟨.reg .rax, ⟨['r', 'a', 'x'], ⟨4, 3⟩⟩, true⟩
    let s : PassState := ⟨bc, LabelTable.empty, []⟩
    bc.OnBoundary ∧ Lex.nextWord.Safe bc ∧ Lex.readOperand.Safe bc ∧
      (Lex.advance (byteLength [' ', '['])).Safe bc ∧
      (Lex.nextWord.run bc = .ok (some w) { bc with point := 6 } ∧
        byteLength w.chars ≤ w.span.length ∧ (Lex.checkBrackets w).Safe { bc with point := 6 }) ∧
      ((Asm.chooseOperand .deferred .pop ⟨0, 3⟩ (some raw)).run s = .ok (.memReg .rax) s ∧
        Opcode.pop.operandClass.admits (Operand.memReg .rax).mode = true) := by
  intro bc w raw s
  have h := assembler_never_panics
  have hb : bc.OnBoundary := ⟨['é'], [' ', '[', 'x', ']'], rfl, rfl⟩
  have hs := h.2.1 bc hb
  have hw : Lex.nextWord.run bc = .ok (some w) { bc with point := 6 } := rfl
  have hc : (Asm.chooseOperand .deferred .pop ⟨0, 3⟩ (some raw)).run s = .ok (.memReg .rax) s :=
    rfl
  exact ⟨hb, hs.2.2.1, hs.2.2.2.2.1, hs.2.2.2.2.2.1 ['é'] [' ', '['] ['x', ']'] rfl rfl,
    ⟨hw, hs.2.2.2.2.2.2 w _ hw⟩, ⟨hc, h.2.2 _ _ _ _ _ _ _ hc⟩⟩

end StackMachine
