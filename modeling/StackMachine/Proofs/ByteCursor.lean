import Mathlib
import StackMachine.Proofs.DiagnosticSpans
/-!
# Reading a line by byte offsets

The assembler's cursor over a line is written over byte offsets into the line's text: it moves
by the offsets that searches for a character return, and it cuts the line with slices between
two offsets. A slice that ends past the text or cuts a character in two stops the whole
program (a panic), and so does a subtraction of byte counts that goes below zero.
`ByteCursor` and its readers (`Lex.nextWord`, `Lex.detectBrackets`, `Lex.checkBrackets`,
`Lex.readOperand` and the steps they are made of) are that cursor, with each slice and each
subtraction checked, so that the panics are results.

`ByteCursor.Agrees` relates a byte cursor to the cursor of `Cursor` that reads the same line:
its offset counts the bytes of the characters already read, so it stands on a character
boundary. `Lex.Matches` says that a byte-level reader, run from a byte cursor, does what a
reader of `Cursor` does from the cursor it stands for. Each reader is shown to match its
counterpart (`Lex.takeWhile_matches` .. `Lex.readOperand_matches`); none of them panics, and
each ends on a character boundary.
-/

namespace StackMachine

open Text

/-- Why the assembler would stop the whole program instead of reporting an error. -/
inductive AsmPanic
  /-- A slice of a line that ends past the line or cuts a character in two. -/
  | slice
  /-- A subtraction of byte counts that goes below zero. -/
  | underflow
  /-- A line with no offset in the program text. -/
  | lineOffset
  /-- An instruction whose opcode's class does not take its operand's mode. -/
  | mode
  deriving DecidableEq, Repr

/-- How reading a line ends early: with a diagnostic, or with a panic. -/
inductive LexStop
  | error (d : Diagnostic)
  | panic (p : AsmPanic)
  deriving DecidableEq, Repr

/-! ## Byte offsets into text -/

/-- The characters of the first `n` bytes of `cs` and those after them; none unless `n` is a
character boundary of `cs`, at most its length. -/
def splitBytes? : List Char → Nat → Option (List Char × List Char)
  | cs, 0 => some ([], cs)
  | [], _ + 1 => none
  | c :: cs, n + 1 =>
    if c.utf8Size ≤ n + 1 then (splitBytes? cs (n + 1 - c.utf8Size)).map (Prod.map (c :: ·) id)
    else none

/-- The text from byte `a` on, `s[a..]`. -/
def sliceFrom (s : List Char) (a : Nat) : Except AsmPanic (List Char) :=
  match splitBytes? s a with
  | some (_, rest) => .ok rest
  | none => .error .slice

/-- The text from byte `a` to byte `b`, `s[a..b]`. -/
def slice (s : List Char) (a b : Nat) : Except AsmPanic (List Char) :=
  if a ≤ b then
    match splitBytes? s b with
    | some (upTo, _) => sliceFrom upTo a
    | none => .error .slice
  else .error .slice

/-- `a - b` on byte counts, which may not go below zero. -/
def checkedSub (a b : Nat) : Except AsmPanic Nat :=
  if b ≤ a then .ok (a - b) else .error .underflow

/-- The byte offset of the first character of `cs` that satisfies `p`. -/
def findByte (p : Char → Bool) : List Char → Option Nat
  | [] => none
  | c :: cs => if p c then some 0 else (findByte p cs).map (c.utf8Size + ·)

/-! ## The cursor -/

/-- A cursor over a line's text, as the assembler keeps it: the text, the byte offset it points
at, the line's number and the offset of the line in the program text. -/
structure ByteCursor where
  chars : List Char
  point : Nat
  line : Nat
  base : Nat

/-- Readers of a line by byte offsets: they move the cursor, and may fail or panic. -/
abbrev Lex := EStateM LexStop ByteCursor

namespace Lex

/-- Runs a check that may panic. -/
def check {α : Type} : Except AsmPanic α → Lex α
  | .ok a => pure a
  | .error p => throw (.panic p)

/-- The error `e` at `sp` of the cursor's line. -/
def fail {α : Type} (e : AsmError) (sp : Span) : Lex α := do
  throw (.error ⟨e, (← get).line, sp⟩)

/-- The text from the cursor on. -/
def atCurrPt : Lex (List Char) := do
  let c ← get
  check (sliceFrom c.chars c.point)

/-- Whether nothing but a comment is left. -/
def isEol : Lex Bool := do
  let rest ← atCurrPt
  pure (rest.isEmpty || rest.head? == some ';')

/-- The character at the cursor. -/
def first : Lex (Option Char) := do
  pure (← atCurrPt).head?

/-- Moves the cursor `amt` bytes on, and no further than the end of the text. -/
def advance (amt : Nat) : Lex Unit :=
  modify fun c => { c with point := min (c.point + amt) (byteLength c.chars) }

/-- Moves past the characters that satisfy `p`, and gives them. -/
def takeWhile (p : Char → Bool) : Lex (List Char) := do
  let start := (← get).point
  let rest ← atCurrPt
  let remaining ← check (checkedSub (byteLength (← get).chars) start)
  advance ((findByte (fun ch => !p ch) rest).getD remaining)
  let c ← get
  check (slice c.chars start c.point)

/-- Moves past the blanks, and gives the new offset. -/
def skipSpaces : Lex Nat := do
  let _ ← takeWhile isBlank
  pure (← get).point

/-- The span in the program text of the line's bytes from `start` to `stop`. -/
def span (start stop : Nat) : Lex Span := do
  pure ⟨(← get).base + start, stop - start⟩

/-- The span from `start` to the last character before the comment that is not blank. -/
def spanToEol (start : Nat) : Lex Span := do
  let c ← get
  let fromStart ← check (sliceFrom c.chars start)
  let stop := ((findByte (· == ';') fromStart).map (start + ·)).getD (byteLength c.chars)
  let upTo ← check (slice c.chars 0 stop)
  span start (max (byteLength (trimEnd upTo)) start)

/-- The next word, up to a blank or a `;`; none when only blanks and a comment are left. -/
def nextWord : Lex (Option Word) := do
  let _ ← skipSpaces
  if ← isEol then return none
  let start := (← get).point
  let text ← takeWhile fun ch => !Cursor.endsWord ch
  let sp ← span start (← get).point
  pure (some ⟨text, sp⟩)

/-- The operand in brackets from the `[` at the cursor, trimmed, with the cursor moved past the
`]`. -/
def readBracket : Lex (Option Word) := do
  let openAt := (← get).point
  let rest ← atCurrPt
  let limit := (findByte (· == ';') rest).getD (byteLength rest)
  let code ← check (slice rest 0 limit)
  let close ← match findByte (· == ']') code with
    | some close => do
      -- a second `[` before the `]` leaves the first one unclosed
      if '[' ∈ (← check (slice rest 1 close)) then fail (.bracket .unclosed) (← spanToEol openAt)
      else pure close
    | none => fail (.bracket .unclosed) (← spanToEol openAt)
  let inner ← check (slice rest 1 close)
  let trimmed := trim inner
  if trimmed.isEmpty then fail (.bracket .empty) (← span openAt (openAt + close + 1))
  let lead ← check (checkedSub (byteLength inner) (byteLength (trimStart inner)))
  let start := openAt + 1 + lead
  advance (close + 1)
  let sp ← span start (start + byteLength trimmed)
  pure (some ⟨trimmed, sp⟩)

/-- The operand in brackets at the cursor, trimmed, with the cursor moved past the `]`; none
when the next character that is not blank is not `[`. -/
def detectBrackets : Lex (Option Word) := do
  let _ ← skipSpaces
  if (← first) ≠ some '[' then return none
  readBracket

/-- Fails on a bracket in a word read without them: first on a `]`, then on a `[`, pointing
from it to the end of the word. -/
def checkBrackets (w : Word) : Lex Unit :=
  match findByte (· == ']') w.chars with
  | some i => fail (.bracket .unopened) ⟨w.span.offset + i, 1⟩
  | none =>
    match findByte (· == '[') w.chars with
    | some i => do fail (.bracket .unclosed) ⟨w.span.offset + i, ← check (checkedSub w.span.length i)⟩
    | none => pure ()

/-- The operand at the cursor, in brackets or as a word; none when the line's code is over. -/
def readOperand : Lex (Option OperandSyntax) := do
  let read ← match ← detectBrackets with
    | some word => pure (some (word, true))
    | none => match ← nextWord with
      | some word => pure (some (word, false))
      | none => pure none
  match read with
  | none => pure none
  | some (word, indirect) =>
    if !indirect then checkBrackets word
    match classify word with
    | .ok arg => pure (some ⟨arg, word, indirect⟩)
    | .error e => fail e word.span

end Lex

/-! ## Slicing at character boundaries -/

theorem splitBytes?_append (pre rest : List Char) :
    splitBytes? (pre ++ rest) (byteLength pre) = some (pre, rest) := by
  induction pre with
  | nil => simp [splitBytes?]
  | cons c pre ih =>
    -- a character takes at least one byte, so the offset is a successor
    have hpos := c.utf8Size_pos
    obtain ⟨n, hn⟩ : ∃ n, c.utf8Size + byteLength pre = n + 1 := ⟨_, (Nat.succ_pred_eq_of_pos
      (Nat.lt_of_lt_of_le hpos (Nat.le_add_right _ _))).symm⟩
    rw [List.cons_append, byteLength_cons, hn, splitBytes?, if_pos (by omega),
      show n + 1 - c.utf8Size = byteLength pre by omega, ih]
    rfl

theorem sliceFrom_append (pre rest : List Char) :
    sliceFrom (pre ++ rest) (byteLength pre) = .ok rest := by
  rw [sliceFrom, splitBytes?_append]

/-- A slice between two character boundaries is the text between them. -/
theorem slice_append (pre mid post : List Char) :
    slice (pre ++ mid ++ post) (byteLength pre) (byteLength pre + byteLength mid) = .ok mid := by
  rw [slice, if_pos (Nat.le_add_right _ _), ← byteLength_append, splitBytes?_append]
  exact sliceFrom_append pre mid

theorem checkedSub_of_le {a b : Nat} (h : b ≤ a) : checkedSub a b = .ok (a - b) := if_pos h

/-- With the length of the text for a search that finds nothing, a search gives the bytes of
the characters before the first one it looks for. -/
theorem findByte_getD (p : Char → Bool) (cs : List Char) :
    (findByte p cs).getD (byteLength cs) = byteLength (cs.takeWhile fun c => !p c) := by
  induction cs with
  | nil => rfl
  | cons c cs ih =>
    by_cases hc : p c
    · simp [findByte, hc]
    · rcases hf : findByte p cs with _ | i <;> simp [findByte, hc, hf] at ih ⊢ <;> omega

theorem findByte_eq_none {p : Char → Bool} {cs : List Char} (h : ∀ c ∈ cs, p c = false) :
    findByte p cs = none := by
  induction cs with
  | nil => rfl
  | cons c cs ih =>
    rw [findByte, if_neg (by simp [h c List.mem_cons_self]),
      ih fun x hx => h x (List.mem_cons_of_mem c hx)]
    rfl

theorem findByte_append {p : Char → Bool} {pre post : List Char} {c : Char}
    (hpre : ∀ x ∈ pre, p x = false) (hc : p c = true) :
    findByte p (pre ++ c :: post) = some (byteLength pre) := by
  induction pre with
  | nil => simp [findByte, hc]
  | cons x pre ih =>
    rw [List.cons_append, findByte, if_neg (by simp [hpre x List.mem_cons_self]),
      ih fun y hy => hpre y (List.mem_cons_of_mem x hy)]
    rfl

/-- Searching for a character, with the text's length for a search that finds nothing, gives
the bytes before its first occurrence: the text a reader of `Cursor` takes up to it. -/
theorem findByte_getD_ne (a : Char) (cs : List Char) :
    (findByte (· == a) cs).getD (byteLength cs) = byteLength (cs.takeWhile (· ≠ a)) := by
  have hp : (fun ch => !(ch == a)) = fun ch => decide (ch ≠ a) := by
    funext ch
    by_cases hch : ch = a <;> simp [hch]
  simp only [findByte_getD, hp]

theorem findByte_eq_some_of_mem {a : Char} {cs : List Char} (h : a ∈ cs) :
    findByte (· == a) cs = some (byteLength (cs.takeWhile (· ≠ a))) := by
  obtain ⟨rest, hrest⟩ := exists_eq_takeWhile_cons h
  have hpre : ∀ x ∈ cs.takeWhile (· ≠ a), (x == a) = false := fun x hx => by
    simpa using List.mem_takeWhile_imp hx
  conv_lhs => rw [hrest]
  rw [findByte_append hpre (by simp)]

theorem findByte_eq_none_of_not_mem {a : Char} {cs : List Char} (h : a ∉ cs) :
    findByte (· == a) cs = none :=
  findByte_eq_none fun x hx => by
    simp only [beq_eq_false_iff_ne, ne_eq]
    rintro rfl
    exact h hx

theorem byteLength_takeWhile_le (p : Char → Bool) (cs : List Char) :
    byteLength (cs.takeWhile p) ≤ byteLength cs := by
  have h := congrArg byteLength (List.takeWhile_append_dropWhile (p := p) (l := cs))
  rw [byteLength_append] at h
  omega

theorem map_add_getD (o : Option Nat) (s d : Nat) : (o.map (s + ·)).getD (s + d) = s + o.getD d := by
  cases o <;> rfl

/-- Trailing blanks come only from the last part, when it has a character that is not blank. -/
theorem trimEnd_append {xs ys : List Char} (h : trimEnd ys ≠ []) :
    trimEnd (xs ++ ys) = xs ++ trimEnd ys := by
  have hne : (ys.reverse.dropWhile isBlank).isEmpty = false := by
    rw [trimEnd, Ne, List.reverse_eq_nil_iff] at h
    simpa using h
  rw [trimEnd, List.reverse_append, List.dropWhile_append, hne, if_neg (by simp),
    List.reverse_append, List.reverse_reverse, trimEnd]

theorem trimEnd_cons_ne_nil {x : Char} (cs : List Char) (hx : isBlank x = false) :
    trimEnd (x :: cs) ≠ [] := by
  rw [trimEnd, Ne, List.reverse_eq_nil_iff, List.reverse_cons, List.dropWhile_append]
  split <;> simp [hx]

/-! ## Byte cursors that stand for cursors -/

/-- The cursor's offset is a character boundary of its text, at most its length. -/
def ByteCursor.OnBoundary (bc : ByteCursor) : Prop :=
  ∃ pre rest, bc.chars = pre ++ rest ∧ bc.point = byteLength pre

/-- A byte cursor stands for a cursor of `Cursor` over the same line: its text is what the
cursor has read and what it has not, its offset counts the bytes read, and the cursor's
position is that offset from the line's. -/
def ByteCursor.Agrees (bc : ByteCursor) (c : Cursor) : Prop :=
  bc.line = c.line ∧ ∃ pre, bc.chars = pre ++ c.rest ∧ bc.point = byteLength pre ∧
    c.pos = bc.base + bc.point

namespace ByteCursor

variable {bc : ByteCursor} {c : Cursor}

theorem Agrees.onBoundary (h : bc.Agrees c) : bc.OnBoundary := by
  obtain ⟨-, pre, hchars, hpoint, -⟩ := h
  exact ⟨pre, c.rest, hchars, hpoint⟩

/-- A byte cursor on a character boundary stands for the cursor over the text after it. -/
theorem OnBoundary.agrees (h : bc.OnBoundary) : ∃ c, bc.Agrees c := by
  obtain ⟨pre, rest, hchars, hpoint⟩ := h
  exact ⟨⟨rest, bc.base + bc.point, bc.line⟩, rfl, pre, hchars, hpoint, rfl⟩

/-- Moving both cursors past the same characters keeps them in step. -/
theorem Agrees.advance {t d : List Char} (h : bc.Agrees c) (hrest : c.rest = t ++ d) :
    ({ bc with point := bc.point + byteLength t } : ByteCursor).Agrees
      ⟨d, c.pos + byteLength t, c.line⟩ := by
  obtain ⟨hline, pre, hchars, hpoint, hpos⟩ := h
  refine ⟨hline, pre ++ t, by simp [hchars, hrest], by simp [hpoint], ?_⟩
  simp only [hpos]
  omega

end ByteCursor

namespace Cursor

variable {c : Cursor}

theorem nextWord?_eq_none_of_eol
    (h : (c.skipBlanks.rest.isEmpty || c.skipBlanks.rest.head? == some ';') = true) :
    c.nextWord? = none := by
  unfold nextWord?
  dsimp only
  rcases hr : c.skipBlanks.rest with _ | ⟨ch, t⟩
  · rfl
  · rw [hr] at h
    obtain rfl : ch = ';' := by simpa using h
    rfl

theorem nextWord?_eq_some_of_not_eol
    (h : (c.skipBlanks.rest.isEmpty || c.skipBlanks.rest.head? == some ';') = false) :
    c.nextWord? = some (⟨c.skipBlanks.rest.takeWhile (fun ch => !endsWord ch),
      ⟨c.skipBlanks.pos, byteLength (c.skipBlanks.rest.takeWhile (fun ch => !endsWord ch))⟩⟩,
      ⟨c.skipBlanks.rest.dropWhile (fun ch => !endsWord ch),
        c.skipBlanks.pos + byteLength (c.skipBlanks.rest.takeWhile (fun ch => !endsWord ch)),
        c.line⟩) := by
  unfold nextWord?
  dsimp only
  split
  · simp_all
  · simp_all
  · rfl

theorem skipBlanks_skipBlanks (c : Cursor) : c.skipBlanks.skipBlanks = c.skipBlanks := by
  obtain ⟨-, -, -, hhead, -, -⟩ := skipBlanks_split c
  rw [skipBlanks_of_split (b := []) (by simp) (fun _ hx => (List.not_mem_nil hx).elim) hhead]
  rfl

theorem bracketed?_skipBlanks (c : Cursor) : c.skipBlanks.bracketed? = c.bracketed? := by
  simp only [bracketed?, skipBlanks_skipBlanks]

theorem nextWord?_skipBlanks (c : Cursor) : c.skipBlanks.nextWord? = c.nextWord? := by
  simp only [nextWord?, skipBlanks_skipBlanks]

/-- `checkBrackets` reads only the cursor's line. -/
theorem checkBrackets_of_line {c c' : Cursor} {w : Word} (h : c.line = c'.line) :
    c.checkBrackets w = c'.checkBrackets w := by
  simp only [checkBrackets, fail, h]

/-- At a `[`, the bracket is read up to the first `]` before a comment; `code` is the text
before the comment and `inner` the text before that `]`. -/
theorem bracketed?_of_open {c : Cursor} {after code inner : List Char} (hrest : c.rest = '[' :: after)
    (hcode : code = after.takeWhile (· ≠ ';')) (hinner : inner = code.takeWhile (· ≠ ']')) :
    c.bracketed? =
      if inner.length = code.length ∨ '[' ∈ inner then
        c.fail (.bracket .unclosed) ⟨c.pos, byteLength (trimEnd ('[' :: code))⟩
      else if (trim inner).isEmpty then c.fail (.bracket .empty) ⟨c.pos, byteLength inner + 2⟩
      else .ok (some (⟨trim inner, ⟨c.pos + 1 + byteLength (inner.takeWhile isBlank),
        byteLength (trim inner)⟩⟩, ⟨after.drop (inner.length + 1), c.pos + byteLength inner + 2,
          c.line⟩)) := by
  have hskip : c.skipBlanks = c :=
    skipBlanks_of_split (b := []) (by simp) (fun _ hx => (List.not_mem_nil hx).elim)
      (by rw [hrest]; simp; decide)
  subst hcode hinner
  unfold bracketed?
  simp only [hskip, hrest]

end Cursor

/-! ## Runs of the readers from a character boundary -/

namespace Lex

variable {α : Type}

@[simp] theorem run_check_ok (a : α) (bc : ByteCursor) :
    (check (.ok a : Except AsmPanic α)).run bc = .ok a bc := rfl

@[simp] theorem run_advance (amt : Nat) (bc : ByteCursor) :
    (advance amt).run bc =
      .ok () { bc with point := min (bc.point + amt) (byteLength bc.chars) } := rfl

@[simp] theorem run_span (start stop : Nat) (bc : ByteCursor) :
    (span start stop).run bc = .ok ⟨bc.base + start, stop - start⟩ bc := rfl

section Boundary

variable {bc : ByteCursor} {pre rest : List Char}
  (hchars : bc.chars = pre ++ rest) (hpoint : bc.point = byteLength pre)
include hchars hpoint

theorem run_atCurrPt : atCurrPt.run bc = .ok rest bc := by
  simp [atCurrPt, hchars, hpoint, sliceFrom_append]

theorem run_isEol : isEol.run bc = .ok (rest.isEmpty || rest.head? == some ';') bc := by
  simp [isEol, run_atCurrPt hchars hpoint]

theorem run_first : first.run bc = .ok rest.head? bc := by
  simp [first, run_atCurrPt hchars hpoint]

/-- `takeWhile` moves past the longest prefix whose characters satisfy `p`, to the boundary
after it, and gives that prefix. -/
theorem run_takeWhile (p : Char → Bool) :
    (takeWhile p).run bc =
      .ok (rest.takeWhile p) { bc with point := bc.point + byteLength (rest.takeWhile p) } := by
  have hsplit : bc.chars = pre ++ rest.takeWhile p ++ rest.dropWhile p := by
    rw [hchars, List.append_assoc, List.takeWhile_append_dropWhile]
  have hrem : checkedSub (byteLength bc.chars) (byteLength pre) = .ok (byteLength rest) := by
    rw [checkedSub_of_le (by simp [hchars])]
    simp [hchars]
  have hfind : (findByte (fun ch => !p ch) rest).getD (byteLength rest) =
      byteLength (rest.takeWhile p) := by
    simp [findByte_getD]
  have hlen : byteLength rest = byteLength (rest.takeWhile p) + byteLength (rest.dropWhile p) := by
    rw [← byteLength_append, List.takeWhile_append_dropWhile]
  have hmin : min (byteLength pre + byteLength (rest.takeWhile p)) (byteLength bc.chars) =
      byteLength pre + byteLength (rest.takeWhile p) := by
    rw [hchars, byteLength_append]
    omega
  have hslice : slice bc.chars (byteLength pre) (byteLength pre + byteLength (rest.takeWhile p)) =
      .ok (rest.takeWhile p) := by
    rw [hsplit, slice_append]
  simp only [takeWhile, EStateM.run_bind, EStateM.run_get, run_atCurrPt hchars hpoint, hrem,
    run_check_ok, hfind, run_advance, hmin, hpoint, hslice]

end Boundary

/-! ## Readers that match the readers of `Cursor` -/

/-- Run from `bc`, the reader ends as a reader of `Cursor` does with outcome `r`: with the same
result, at a byte cursor that stands for the cursor `r` gives; or with the same diagnostic, on
a character boundary. It only moves the cursor, and it does not panic. -/
def Matches {α : Type} (x : Lex α) (bc : ByteCursor) : Except Diagnostic (α × Cursor) → Prop
  | .ok (a, c) => ∃ n, x.run bc = .ok a { bc with point := n } ∧
      ({ bc with point := n } : ByteCursor).Agrees c
  | .error d => ∃ n, x.run bc = .error (.error d) { bc with point := n } ∧
      ({ bc with point := n } : ByteCursor).OnBoundary

variable {β : Type} {bc : ByteCursor} {c : Cursor}

theorem Matches.bind {x : Lex α} {f : α → Lex β} {a : α} {c' : Cursor}
    {r : Except Diagnostic (β × Cursor)} (hx : x.Matches bc (.ok (a, c')))
    (hf : ∀ n, ({ bc with point := n } : ByteCursor).Agrees c' →
      (f a).Matches { bc with point := n } r) :
    (x >>= f).Matches bc r := by
  obtain ⟨n, hrun, hagree⟩ := hx
  have hnext := hf n hagree
  rcases r with d | ⟨b, c''⟩
  · obtain ⟨m, hrun', hb⟩ := hnext
    exact ⟨m, by rw [EStateM.run_bind, hrun]; exact hrun', hb⟩
  · obtain ⟨m, hrun', hb⟩ := hnext
    exact ⟨m, by rw [EStateM.run_bind, hrun]; exact hrun', hb⟩

theorem Matches.bind_error {x : Lex α} {f : α → Lex β} {d : Diagnostic}
    (hx : x.Matches bc (.error d)) : (x >>= f).Matches bc (.error d) := by
  obtain ⟨n, hrun, hb⟩ := hx
  exact ⟨n, by rw [EStateM.run_bind, hrun], hb⟩

/-- A step that leaves the cursor where it is, followed by a reader that matches. -/
theorem Matches.bind_of_run {x : Lex α} {f : α → Lex β} {a : α}
    {r : Except Diagnostic (β × Cursor)} (hx : x.run bc = .ok a bc) (hf : (f a).Matches bc r) :
    (x >>= f).Matches bc r := by
  rcases r with d | ⟨b, c'⟩
  · obtain ⟨m, hrun, hb⟩ := hf
    exact ⟨m, by rw [EStateM.run_bind, hx]; exact hrun, hb⟩
  · obtain ⟨m, hrun, hb⟩ := hf
    exact ⟨m, by rw [EStateM.run_bind, hx]; exact hrun, hb⟩

theorem matches_pure (a : α) (h : bc.Agrees c) : (pure a : Lex α).Matches bc (.ok (a, c)) :=
  ⟨bc.point, rfl, h⟩

theorem matches_fail (e : AsmError) (sp : Span) (h : bc.Agrees c) :
    (fail e sp : Lex α).Matches bc (.error ⟨e, c.line, sp⟩) := by
  have hb := h.onBoundary
  obtain ⟨hline, -⟩ := h
  rw [← hline]
  exact ⟨bc.point, rfl, hb⟩

/-- Moving past characters the cursor stands before. -/
theorem advance_matches {t d : List Char} (h : bc.Agrees c) (hrest : c.rest = t ++ d) :
    (advance (byteLength t)).Matches bc (.ok ((), ⟨d, c.pos + byteLength t, c.line⟩)) := by
  have hadv := h.advance hrest
  obtain ⟨-, pre, hchars, hpoint, -⟩ := h
  have hmin : min (bc.point + byteLength t) (byteLength bc.chars) = bc.point + byteLength t := by
    rw [hchars, hrest, hpoint]
    simp
  exact ⟨_, by rw [run_advance, hmin], hadv⟩

theorem takeWhile_matches (p : Char → Bool) (h : bc.Agrees c) :
    (takeWhile p).Matches bc (.ok (c.rest.takeWhile p,
      ⟨c.rest.dropWhile p, c.pos + byteLength (c.rest.takeWhile p), c.line⟩)) := by
  have hadv := h.advance (List.takeWhile_append_dropWhile (p := p) (l := c.rest)).symm
  obtain ⟨-, pre, hchars, hpoint, -⟩ := h
  exact ⟨_, run_takeWhile hchars hpoint p, hadv⟩

theorem span_matches (start stop : Nat) (h : bc.Agrees c) :
    (span start stop).Matches bc (.ok (⟨bc.base + start, stop - start⟩, c)) :=
  ⟨bc.point, rfl, h⟩

/-- From a `[` at the cursor, the span runs to the last character before the comment that is
not blank. -/
theorem spanToEol_matches {after : List Char} (h : bc.Agrees c) (hrest : c.rest = '[' :: after) :
    (spanToEol bc.point).Matches bc
      (.ok (⟨c.pos, byteLength (trimEnd ('[' :: after.takeWhile (· ≠ ';')))⟩, c)) := by
  have h' := h
  obtain ⟨-, pre, hchars, hpoint, hpos⟩ := h'
  set code := after.takeWhile (· ≠ ';')
  have hcode : ('[' :: after).takeWhile (· ≠ ';') = '[' :: code :=
    List.takeWhile_cons_of_pos (by decide)
  have hfrom : sliceFrom bc.chars bc.point = .ok ('[' :: after) := by
    rw [hchars, hpoint, hrest, sliceFrom_append]
  have hstop : ((findByte (· == ';') ('[' :: after)).map (bc.point + ·)).getD
      (byteLength bc.chars) = bc.point + byteLength ('[' :: code) := by
    rw [hchars, byteLength_append, ← hpoint, hrest, map_add_getD, findByte_getD_ne, hcode]
  have hupTo : slice bc.chars 0 (bc.point + byteLength ('[' :: code)) = .ok (pre ++ '[' :: code) := by
    have hsplit : bc.chars = [] ++ (pre ++ '[' :: code) ++ after.dropWhile (· ≠ ';') := by
      rw [hchars, hrest, List.nil_append, List.append_assoc, List.cons_append,
        List.takeWhile_append_dropWhile]
    have := slice_append [] (pre ++ '[' :: code) (after.dropWhile (· ≠ ';'))
    rw [hsplit, hpoint, ← byteLength_append]
    simpa using this
  have htrim : trimEnd (pre ++ '[' :: code) = pre ++ trimEnd ('[' :: code) :=
    trimEnd_append (trimEnd_cons_ne_nil _ rfl)
  unfold spanToEol
  refine Matches.bind_of_run (EStateM.run_get _) ?_
  refine Matches.bind_of_run (by rw [hfrom]; rfl) ?_
  dsimp only
  rw [hstop]
  refine Matches.bind_of_run (by rw [hupTo]; rfl) ?_
  rw [htrim, byteLength_append, ← hpoint, max_eq_left (Nat.le_add_right _ _)]
  have hspan := span_matches bc.point (bc.point + byteLength (trimEnd ('[' :: code))) h
  rwa [Nat.add_sub_cancel_left, ← hpos] at hspan

/-- From a `[`, reading the bracket matches `Cursor.bracketed?`. -/
theorem readBracket_matches {after : List Char} (h : bc.Agrees c) (hrest : c.rest = '[' :: after) :
    readBracket.Matches bc (c.bracketed?.map fun r => (r.map (·.1), (r.map (·.2)).getD c)) := by
  have h' := h
  obtain ⟨hline, pre, hchars, hpoint, hpos⟩ := h'
  set code := after.takeWhile (· ≠ ';') with hcode_def
  set inner := code.takeWhile (· ≠ ']') with hinner_def
  have hcur := Cursor.bracketed?_of_open hrest hcode_def hinner_def
  have hlimit : (findByte (· == ';') ('[' :: after)).getD (byteLength ('[' :: after)) =
      byteLength ('[' :: code) := by
    rw [findByte_getD_ne, List.takeWhile_cons_of_pos (by decide)]
  have hslice0 : slice ('[' :: after) 0 (byteLength ('[' :: code)) = .ok ('[' :: code) := by
    have := slice_append [] ('[' :: code) (after.dropWhile (· ≠ ';'))
    rw [List.nil_append, List.cons_append, List.takeWhile_append_dropWhile] at this
    simpa using this
  unfold readBracket
  refine Matches.bind_of_run (EStateM.run_get _) ?_
  refine Matches.bind_of_run (run_atCurrPt hchars hpoint) ?_
  rw [hrest]
  dsimp only
  rw [hlimit]
  refine Matches.bind_of_run (by rw [hslice0]; rfl) ?_
  by_cases hclosed : ']' ∈ code
  swap
  · have hall : inner.length = code.length := by
      rw [hinner_def, List.takeWhile_eq_self_iff.2 fun x hx => by
        simpa using fun hx' : x = ']' => hclosed (hx' ▸ hx)]
    rw [findByte_eq_none_of_not_mem (by simp [hclosed]), hcur, if_pos (.inl hall)]
    refine Matches.bind (spanToEol_matches h hrest) fun n hn => ?_
    exact Matches.bind_error (matches_fail _ _ hn)
  have hne : inner.length ≠ code.length := fun hlen => by
    have heq : inner = code := (List.takeWhile_prefix _).eq_of_length hlen
    have hmem := List.mem_takeWhile_imp (heq ▸ hclosed : ']' ∈ inner)
    simp at hmem
  obtain ⟨R, hR, -⟩ := bracket_layout hne
  have hR' : after = inner ++ ']' :: R := hR
  have h1 : '['.utf8Size = 1 := rfl
  have hfind : findByte (· == ']') ('[' :: code) = some (byteLength ('[' :: inner)) := by
    rw [findByte_eq_some_of_mem (List.mem_cons_of_mem _ hclosed),
      List.takeWhile_cons_of_pos (by decide)]
  have hslice1 : slice ('[' :: after) 1 (byteLength ('[' :: inner)) = .ok inner := by
    have := slice_append ['['] inner (']' :: R)
    rw [hR']
    simpa [h1] using this
  rw [hfind]
  dsimp only
  refine Matches.bind_of_run (by rw [hslice1]; rfl) ?_
  by_cases hnest : '[' ∈ inner
  · rw [if_pos hnest, hcur, if_pos (.inr hnest)]
    refine Matches.bind (spanToEol_matches h hrest) fun n hn => ?_
    exact Matches.bind_error (matches_fail _ _ hn)
  rw [if_neg hnest]
  refine Matches.bind_of_run (EStateM.run_pure _ _) ?_
  refine Matches.bind_of_run (by rw [hslice1]; rfl) ?_
  by_cases hempty : (trim inner).isEmpty = true
  · rw [if_pos hempty, hcur, if_neg (by simp [hne, hnest]), if_pos hempty]
    refine Matches.bind_of_run (run_span _ _ _) ?_
    have hsp : (⟨bc.base + bc.point, bc.point + byteLength ('[' :: inner) + 1 - bc.point⟩ : Span) =
        ⟨c.pos, byteLength inner + 2⟩ := by
      rw [hpos, byteLength_cons, h1]
      congr 1
      omega
    rw [hsp]
    exact Matches.bind_error (matches_fail _ _ h)
  rw [if_neg hempty, hcur, if_neg (by simp [hne, hnest]), if_neg hempty]
  have hlead : checkedSub (byteLength inner) (byteLength (trimStart inner)) =
      .ok (byteLength (inner.takeWhile isBlank)) := by
    have hsplit := congrArg byteLength (List.takeWhile_append_dropWhile (p := isBlank) (l := inner))
    rw [byteLength_append] at hsplit
    rw [trimStart, checkedSub_of_le (by omega)]
    congr 1
    omega
  refine Matches.bind_of_run (by rw [hlead]; rfl) ?_
  have hclose : byteLength ('[' :: inner) + 1 = byteLength ('[' :: inner ++ [']']) := by
    rw [byteLength_bracket, byteLength_cons, h1]
    omega
  have hdrop : after.drop (inner.length + 1) = R := by
    rw [hR']
    simp
  rw [hclose]
  refine Matches.bind (advance_matches (d := R) h (by rw [hrest, hR']; simp)) fun n hn => ?_
  refine Matches.bind_of_run (run_span _ _ _) ?_
  dsimp only
  rw [byteLength_bracket, ← hdrop] at hn
  have hsp : (⟨bc.base + (bc.point + 1 + byteLength (inner.takeWhile isBlank)),
      bc.point + 1 + byteLength (inner.takeWhile isBlank) + byteLength (trim inner) -
        (bc.point + 1 + byteLength (inner.takeWhile isBlank))⟩ : Span) =
      ⟨c.pos + 1 + byteLength (inner.takeWhile isBlank), byteLength (trim inner)⟩ := by
    rw [hpos]
    congr 1
    · omega
    · omega
  rw [hsp]
  exact matches_pure _ hn

theorem get_matches (h : bc.Agrees c) : (get : Lex ByteCursor).Matches bc (.ok (bc, c)) :=
  ⟨bc.point, rfl, h⟩

theorem isEol_matches (h : bc.Agrees c) :
    isEol.Matches bc (.ok (c.rest.isEmpty || c.rest.head? == some ';', c)) := by
  have h' := h
  obtain ⟨-, pre, hchars, hpoint, -⟩ := h'
  exact ⟨bc.point, run_isEol hchars hpoint, h⟩

theorem first_matches (h : bc.Agrees c) : first.Matches bc (.ok (c.rest.head?, c)) := by
  have h' := h
  obtain ⟨-, pre, hchars, hpoint, -⟩ := h'
  exact ⟨bc.point, run_first hchars hpoint, h⟩

theorem skipSpaces_matches (h : bc.Agrees c) :
    skipSpaces.Matches bc (.ok (bc.point + byteLength (c.rest.takeWhile isBlank), c.skipBlanks)) := by
  unfold skipSpaces
  refine Matches.bind (takeWhile_matches isBlank h) fun n hn => ?_
  refine Matches.bind (get_matches hn) fun m hm => ?_
  obtain ⟨-, -, -, -, hpos⟩ := h
  obtain ⟨-, -, -, -, hpos'⟩ := hn
  have hn : n = bc.point + byteLength (c.rest.takeWhile isBlank) := by
    simp only at hpos'
    omega
  subst hn
  exact matches_pure _ hm

theorem nextWord_matches (h : bc.Agrees c) :
    nextWord.Matches bc (.ok (c.nextWord?.map (·.1), (c.nextWord?.map (·.2)).getD c.skipBlanks)) := by
  unfold nextWord
  refine Matches.bind (skipSpaces_matches h) fun n hn => ?_
  refine Matches.bind (isEol_matches hn) fun m hm => ?_
  dsimp only at hm ⊢
  cases heol : (c.skipBlanks.rest.isEmpty || c.skipBlanks.rest.head? == some ';')
  · rw [Cursor.nextWord?_eq_some_of_not_eol heol, if_neg (by simp)]
    refine Matches.bind (get_matches hm) fun n₁ h₁ => ?_
    refine Matches.bind (takeWhile_matches _ h₁) fun n₂ h₂ => ?_
    refine Matches.bind (get_matches h₂) fun n₃ h₃ => ?_
    refine Matches.bind (span_matches _ _ h₃) fun n₄ h₄ => ?_
    dsimp only at h₂ h₄ ⊢
    obtain ⟨-, -, -, -, hpos⟩ := hm
    obtain ⟨-, -, -, -, hpos₂⟩ := h₂
    have hsp : (⟨bc.base + m, n₂ - m⟩ : Span) =
        ⟨c.skipBlanks.pos, byteLength (c.skipBlanks.rest.takeWhile fun ch => !Cursor.endsWord ch)⟩ := by
      simp only at hpos hpos₂
      rw [hpos]
      congr 1
      omega
    rw [hsp]
    exact matches_pure _ h₄
  · rw [Cursor.nextWord?_eq_none_of_eol heol, if_pos rfl]
    exact matches_pure none hm

theorem detectBrackets_matches (h : bc.Agrees c) :
    detectBrackets.Matches bc
      (c.bracketed?.map fun r => (r.map (·.1), (r.map (·.2)).getD c.skipBlanks)) := by
  unfold detectBrackets
  refine Matches.bind (skipSpaces_matches h) fun n hn => ?_
  refine Matches.bind (first_matches hn) fun m hm => ?_
  dsimp only at hm ⊢
  by_cases hopen : c.skipBlanks.rest.head? = some '['
  · obtain ⟨after, hafter⟩ : ∃ after, c.skipBlanks.rest = '[' :: after := by
      rcases hr : c.skipBlanks.rest with _ | ⟨x, after⟩
      · simp [hr] at hopen
      · simp only [hr, List.head?_cons, Option.some.injEq] at hopen
        exact ⟨after, by rw [hopen]⟩
    rw [if_neg (not_not.2 hopen), ← Cursor.bracketed?_skipBlanks]
    exact readBracket_matches hm hafter
  · rw [if_pos hopen, Cursor.bracketed?_of_head fun ch hch hbr => hopen (hbr ▸ hch)]
    exact matches_pure none hm

/-- Checking a word for brackets matches `Cursor.checkBrackets` for a word whose span is at least
as long as its text: the length left after the `[` does not go below zero. -/
theorem checkBrackets_matches {w : Word} (hw : byteLength w.chars ≤ w.span.length)
    (h : bc.Agrees c) :
    (checkBrackets w).Matches bc ((c.checkBrackets w).map fun u => (u, c)) := by
  unfold checkBrackets Cursor.checkBrackets
  by_cases hclose : ']' ∈ w.chars
  · rw [findByte_eq_some_of_mem hclose, if_pos hclose]
    exact matches_fail _ _ h
  rw [findByte_eq_none_of_not_mem hclose, if_neg hclose]
  by_cases hopen : '[' ∈ w.chars
  · rw [findByte_eq_some_of_mem hopen, if_pos hopen]
    dsimp only
    have hle : byteLength (w.chars.takeWhile (· ≠ '[')) ≤ w.span.length :=
      le_trans (byteLength_takeWhile_le _ _) hw
    rw [checkedSub_of_le hle]
    exact Matches.bind_of_run rfl (matches_fail _ _ h)
  · rw [findByte_eq_none_of_not_mem hopen, if_neg hopen]
    exact matches_pure () h

theorem readOperand_matches (h : bc.Agrees c) :
    readOperand.Matches bc
      (c.operand?.map fun r => (r.map (·.1), (r.map (·.2)).getD c.skipBlanks)) := by
  have hdet := detectBrackets_matches h
  unfold readOperand
  rcases hb : c.bracketed? with d | _ | ⟨w, next⟩
  · have hop : c.operand? = .error d := by
      unfold Cursor.operand?
      simp only [bind, Except.bind, hb]
    rw [hb] at hdet
    rw [hop]
    exact Matches.bind_error hdet
  · rw [hb] at hdet
    simp only [Except.map, Option.map_none, Option.getD_none] at hdet
    refine Matches.bind hdet fun n hn => ?_
    dsimp only
    have hnext := nextWord_matches hn
    rw [Cursor.nextWord?_skipBlanks, Cursor.skipBlanks_skipBlanks] at hnext
    rcases hw : c.nextWord? with _ | ⟨w, next⟩
    · have hop : c.operand? = .ok none := by
        unfold Cursor.operand?
        simp only [bind, Except.bind, pure, Except.pure, hb, hw]
      rw [hw] at hnext
      rw [hop]
      refine Matches.bind hnext fun m hm => ?_
      exact Matches.bind_of_run (EStateM.run_pure _ _) (matches_pure none hm)
    obtain ⟨_, -, -, -, -, -, hspan, -, hline⟩ := Cursor.nextWord?_sound hw
    rw [hw] at hnext
    simp only [Option.map_some, Option.getD_some] at hnext
    refine Matches.bind hnext fun m hm => ?_
    refine Matches.bind_of_run (EStateM.run_pure _ _) ?_
    dsimp only at hm ⊢
    rw [if_pos (show (!false) = true from rfl)]
    have hcb := checkBrackets_matches (w := w) (by rw [hspan]) hm
    rw [Cursor.checkBrackets_of_line hline] at hcb
    rcases hc : c.checkBrackets w with e | ⟨⟩
    · have hop : c.operand? = .error e := by
        unfold Cursor.operand?
        simp only [bind, Except.bind, hb, hw, hc]
      rw [hc] at hcb
      rw [hop]
      exact Matches.bind_error hcb
    rw [hc] at hcb
    refine Matches.bind hcb fun k hk => ?_
    rcases hcl : classify w with e | arg
    · have hop : c.operand? = c.fail e w.span := by
        unfold Cursor.operand?
        simp only [bind, Except.bind, pure, Except.pure, hb, hw, hc, hcl]
      rw [hop, Cursor.fail, ← hline]
      exact matches_fail _ _ hk
    · have hop : c.operand? = .ok (some (⟨arg, w, false⟩, next)) := by
        unfold Cursor.operand?
        simp only [bind, Except.bind, pure, Except.pure, hb, hw, hc, hcl]
      rw [hop]
      exact matches_pure _ hk
  · obtain ⟨-, -, -, -, -, -, -, hline⟩ := Cursor.bracketed?_sound hb
    rw [hb] at hdet
    simp only [Except.map, Option.map_some, Option.getD_some] at hdet
    refine Matches.bind hdet fun n hn => ?_
    refine Matches.bind_of_run (EStateM.run_pure _ _) ?_
    dsimp only
    rw [if_neg (by decide)]
    rcases hcl : classify w with e | arg
    · have hop : c.operand? = c.fail e w.span := by
        unfold Cursor.operand?
        simp only [bind, Except.bind, pure, Except.pure, hb, hcl]
      rw [hop, Cursor.fail, ← hline]
      exact matches_fail _ _ hn
    · have hop : c.operand? = .ok (some (⟨arg, w, true⟩, next)) := by
        unfold Cursor.operand?
        simp only [bind, Except.bind, pure, Except.pure, hb, hcl]
      rw [hop]
      exact matches_pure _ hn

/-! ## No reader panics, and each ends on a character boundary -/

/-- Run from `bc`, the reader does not panic, and it leaves the cursor on a character boundary
whether it gives a result or fails. -/
def Safe (x : Lex α) (bc : ByteCursor) : Prop :=
  match x.run bc with
  | .ok _ bc' => bc'.OnBoundary
  | .error (.error _) bc' => bc'.OnBoundary
  | .error (.panic _) _ => False

theorem Matches.safe {x : Lex α} {r : Except Diagnostic (α × Cursor)} (h : x.Matches bc r) :
    x.Safe bc := by
  rcases r with d | ⟨a, c'⟩
  · obtain ⟨n, hrun, hb⟩ := h
    unfold Safe
    rw [hrun]
    exact hb
  · obtain ⟨n, hrun, hagree⟩ := h
    unfold Safe
    rw [hrun]
    exact hagree.onBoundary

/-- Moving past characters ahead of the cursor ends on the boundary after them. -/
theorem advance_safe {pre t d : List Char} (hchars : bc.chars = pre ++ t ++ d)
    (hpoint : bc.point = byteLength pre) : (advance (byteLength t)).Safe bc :=
  (advance_matches (c := ⟨t ++ d, bc.base + bc.point, bc.line⟩)
    ⟨rfl, pre, by rw [hchars, List.append_assoc], hpoint, rfl⟩ rfl).safe

section Boundary

variable (hb : bc.OnBoundary)
include hb

theorem takeWhile_safe (p : Char → Bool) : (takeWhile p).Safe bc := by
  obtain ⟨c, hc⟩ := hb.agrees
  exact (takeWhile_matches p hc).safe

theorem skipSpaces_safe : skipSpaces.Safe bc := by
  obtain ⟨c, hc⟩ := hb.agrees
  exact (skipSpaces_matches hc).safe

theorem nextWord_safe : nextWord.Safe bc := by
  obtain ⟨c, hc⟩ := hb.agrees
  exact (nextWord_matches hc).safe

theorem detectBrackets_safe : detectBrackets.Safe bc := by
  obtain ⟨c, hc⟩ := hb.agrees
  exact (detectBrackets_matches hc).safe

theorem readOperand_safe : readOperand.Safe bc := by
  obtain ⟨c, hc⟩ := hb.agrees
  exact (readOperand_matches hc).safe

theorem checkBrackets_safe {w : Word} (hw : byteLength w.chars ≤ w.span.length) :
    (checkBrackets w).Safe bc := by
  obtain ⟨c, hc⟩ := hb.agrees
  exact (checkBrackets_matches hw hc).safe

/-- A word `nextWord` reads spans its own bytes. -/
theorem nextWord_span {w : Word} {bc' : ByteCursor} (h : nextWord.run bc = .ok (some w) bc') :
    byteLength w.chars ≤ w.span.length := by
  obtain ⟨c, hc⟩ := hb.agrees
  obtain ⟨n, hrun, -⟩ := nextWord_matches hc
  rw [hrun] at h
  have hw : c.nextWord?.map (·.1) = some w := (EStateM.Result.ok.inj h).1
  rcases hn : c.nextWord? with _ | ⟨w', c'⟩
  · rw [hn] at hw
    cases hw
  · rw [hn] at hw
    cases hw
    obtain ⟨_, -, -, -, -, -, hspan, -⟩ := Cursor.nextWord?_sound hn
    rw [hspan]

end Boundary

end Lex

end StackMachine
