import StackMachine.Assembly.Statement
import StackMachine.Image
/-!
# Assembling

Assembly takes two passes over the lines. The first reads every line, binds each label to
the number of code bytes before it, and collects one error at most per line. If it found
any, they are the result. Otherwise the second pass looks up the labels that operands name;
it can only fail on a label that is never defined.
-/

namespace StackMachine

/-- What the first pass has gathered. -/
structure Survey where
  labels : LabelTable
  /-- How many code bytes the lines read so far take. -/
  size : Nat
  /-- The instructions read so far, each with its line. -/
  forms : Array (Nat × Form)
  errors : Array Diagnostic

/-- Nothing gathered yet. -/
def Survey.empty : Survey := ⟨LabelTable.empty, 0, #[], #[]⟩

/-- The survey with a line's error noted. -/
def Survey.reject (s : Survey) (d : Diagnostic) : Survey :=
  { s with errors := s.errors.push d }

/-- Reads one more line: binds its label at the current code size, then reads its
instruction. -/
def Survey.line (s : Survey) (c : Cursor) : Survey :=
  match c.head with
  | .error d => s.reject d
  | .ok h =>
    let bound : Except Diagnostic LabelTable :=
      match h.label with
      | none => .ok s.labels
      | some (name, span) =>
        match s.labels.insert name ⟨s.size.toUInt32, c.line⟩ with
        | .ok t => .ok t
        | .error first => .error ⟨.duplicateLabel name first.line, c.line, span⟩
    match bound with
    | .error d => s.reject d
    | .ok labels =>
      let s := { s with labels }
      match h.mnemonic with
      | none => s
      | some (w, after) =>
        match after.instruction w with
        | .error d => s.reject d
        | .ok f => { s with size := s.size + f.size, forms := s.forms.push (c.line, f) }

/-- The first pass over a program. -/
def Program.survey (p : Program) : Survey :=
  ((p.lines.zip p.offsets).zipIdx).foldl
    (fun s ((text, offset), line) => s.line (Cursor.start line offset text)) Survey.empty

/-- An assembled program: its instructions in order, and the labels it defines. -/
structure Assembly where
  instructions : List Instruction
  labels : LabelTable

/-- The code bytes: the instructions' encodings one after another. -/
def Assembly.payload (a : Assembly) : List UInt8 :=
  a.instructions.flatMap Instruction.encode

/-- The image holding the code. -/
def Assembly.image (a : Assembly) : Image :=
  ⟨a.payload⟩

/-- The outcome of the second pass: every instruction resolved, or every unresolved
label. -/
def resolveAll (labels : LabelTable) (forms : List (Nat × Form)) :
    Except (List Diagnostic) (List Instruction) :=
  let results := forms.map fun (line, f) => f.resolve labels line
  let errors := results.filterMap fun r => match r with
    | .error d => some d
    | .ok _ => none
  if errors.isEmpty then
    .ok (results.filterMap fun r => match r with
      | .ok i => some i
      | .error _ => none)
  else .error errors

/-- Assembles a program. -/
def Program.assemble (p : Program) : Except CompileError Assembly :=
  let s := p.survey
  if !s.errors.isEmpty then .error ⟨s.errors.toList⟩
  else
    match resolveAll s.labels s.forms.toList with
    | .ok is => .ok ⟨is, s.labels⟩
    | .error ds => .error ⟨ds⟩

end StackMachine
