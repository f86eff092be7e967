import StackMachine.Assembly.Diagnostic
import StackMachine.Text.Blank
/-!
# Reading a line

A cursor is the part of a line not read yet, with the offset in the program text of its
first byte; every word it yields carries its span, so a diagnostic can point at it. Words are
separated by blanks, and a `;` ends the line's code.

An operand in brackets is read as a whole: the text between `[` and the first `]`, trimmed.
When there is no `]` before the comment, or a second `[` comes first, the bracket is
unclosed, and the error points from `[` to the last non-blank character before the comment.
-/

namespace StackMachine

open Text

/-- A run of characters of a line, and where it stands in the program text. -/
structure Word where
  chars : List Char
  span : Span
  deriving DecidableEq, Repr

/-- The word's text. -/
def Word.text (w : Word) : String := String.ofList w.chars

/-- What is left of a line to read. -/
structure Cursor where
  /-- The characters not read yet. -/
  rest : List Char
  /-- The offset of the first of them in the program text. -/
  pos : Nat
  /-- The line being read, counted from 0. -/
  line : Nat
  deriving DecidableEq, Repr

namespace Cursor

/-- A cursor at the start of line `line`, whose text starts at offset `offset`. -/
def start (line offset : Nat) (text : String) : Cursor :=
  ⟨text.toList, offset, line⟩

/-- Moves past the blanks at the cursor. -/
def skipBlanks (c : Cursor) : Cursor :=
  ⟨c.rest.dropWhile isBlank, c.pos + byteLength (c.rest.takeWhile isBlank), c.line⟩

/-- Whether a character ends a word. -/
def endsWord (ch : Char) : Bool := isBlank ch || ch == ';'

/-- The next word, and the cursor after it; none when only blanks and a comment are left. -/
def nextWord? (c : Cursor) : Option (Word × Cursor) :=
  let c := c.skipBlanks
  match c.rest with
  | [] => none
  | ';' :: _ => none
  | rest =>
    let w := rest.takeWhile (fun ch => !endsWord ch)
    some (⟨w, ⟨c.pos, byteLength w⟩⟩, ⟨rest.dropWhile (fun ch => !endsWord ch),
      c.pos + byteLength w, c.line⟩)

/-- The error `e` at `span` of this cursor's line. -/
def fail {α : Type} (c : Cursor) (e : AsmError) (span : Span) : Except Diagnostic α :=
  .error ⟨e, c.line, span⟩

/-- The operand in brackets at the cursor, trimmed, and the cursor after the `]`; none when
the next character that is not blank is not `[`. -/
def bracketed? (c : Cursor) : Except Diagnostic (Option (Word × Cursor)) :=
  let c := c.skipBlanks
  match c.rest with
  | '[' :: after =>
    let code := after.takeWhile (· ≠ ';')
    let inner := code.takeWhile (· ≠ ']')
    if inner.length = code.length ∨ '[' ∈ inner then
      c.fail (.bracket .unclosed) ⟨c.pos, byteLength (trimEnd ('[' :: code))⟩
    else
      let word := trim inner
      if word.isEmpty then
        c.fail (.bracket .empty) ⟨c.pos, byteLength inner + 2⟩
      else
        let first := c.pos + 1 + byteLength (inner.takeWhile isBlank)
        .ok (some (⟨word, ⟨first, byteLength word⟩⟩,
          ⟨after.drop (inner.length + 1), c.pos + byteLength inner + 2, c.line⟩))
  | _ => .ok none

/-- Fails on a bracket in a word read without them: first on a `]`, pointing at it, then on
a `[`, pointing from it to the end of the word. -/
def checkBrackets (c : Cursor) (w : Word) : Except Diagnostic Unit :=
  if ']' ∈ w.chars then
    c.fail (.bracket .unopened) ⟨w.span.offset + byteLength (w.chars.takeWhile (· ≠ ']')), 1⟩
  else if '[' ∈ w.chars then
    let i := byteLength (w.chars.takeWhile (· ≠ '['))
    c.fail (.bracket .unclosed) ⟨w.span.offset + i, w.span.length - i⟩
  else .ok ()

end Cursor

end StackMachine
