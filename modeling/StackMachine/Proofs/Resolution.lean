import Mathlib
import StackMachine.Assembly.Assemble
import StackMachine.Proofs.Codec
/-!
# Label resolution is exact

The first pass binds every label to the number of code bytes the lines before it emit, and
lays out each line's instruction at that same count; the second pass replaces each label
operand by the offset bound to the label. Nothing the second pass does changes a size, so
the offsets of the first pass are those of the code.

This module states that in terms of the lines alone. `Program.definitions` are the labels the
lines define, `Program.emitted` the instructions they carry, and `Program.codeStart k` the
bytes the lines before line `k` emit. `assemble_resolves_labels`: an assembled program binds
exactly its definitions, each to the code start of its line, lists back one entry per
instruction line at that line's code start, and each label operand is the code start of the
label as a 32-bit word. `label_target_wraps`: past `2 ^ 31` bytes that word is negative.
-/

namespace StackMachine

/-! ## What each line says -/

namespace Cursor

/-- The label a line defines, when its start reads. -/
def definedLabel? (c : Cursor) : Option String :=
  match c.head with
  | .ok h => h.label.map (·.1)
  | .error _ => none

/-- The instruction a line carries, when it reads. -/
def form? (c : Cursor) : Option Form :=
  match c.head with
  | .ok ⟨_, some (w, after)⟩ => (after.instruction w).toOption
  | _ => none

/-- A line reads: its start does, and so does its instruction if it has one. Whether its
label is new is a matter of the lines before it. -/
def Reads (c : Cursor) : Prop :=
  match c.head with
  | .ok ⟨_, some (w, after)⟩ => (after.instruction w).toOption.isSome
  | .ok ⟨_, none⟩ => True
  | .error _ => False

/-- The instructions a list of lines carries, each with its line. -/
def emittedBy (cs : List Cursor) : List (Nat × Form) :=
  cs.filterMap fun c => c.form?.map (c.line, ·)

/-- The labels a list of lines defines, each with its line. -/
def definedBy (cs : List Cursor) : List (String × Nat) :=
  cs.filterMap fun c => c.definedLabel?.map (·, c.line)

end Cursor

/-- How many code bytes instructions take. -/
def Form.totalSize : List (Nat × Form) → Nat
  | [] => 0
  | x :: xs => x.2.size + totalSize xs

@[simp] theorem Form.totalSize_nil : Form.totalSize [] = 0 := rfl

@[simp] theorem Form.totalSize_cons (x : Nat × Form) (xs : List (Nat × Form)) :
    Form.totalSize (x :: xs) = x.2.size + Form.totalSize xs := rfl

@[simp] theorem Form.totalSize_append (xs ys : List (Nat × Form)) :
    Form.totalSize (xs ++ ys) = Form.totalSize xs + Form.totalSize ys := by
  induction xs with
  | nil => simp
  | cons x xs ih => simp [ih]; omega

/-- No instruction stands before line `k` when all stand on it or after. -/
theorem filter_line_lt_eq_nil {E : List (Nat × Form)} {k : Nat} (h : ∀ y ∈ E, k ≤ y.1) :
    E.filter (·.1 < k) = [] := by
  rw [List.filter_eq_nil_iff]
  intro y hy
  simpa using h y hy

namespace Cursor

theorem emittedBy_cons (c : Cursor) (cs : List Cursor) :
    emittedBy (c :: cs) = (c.form?.map (c.line, ·)).toList ++ emittedBy cs := by
  rcases hf : c.form? with _ | f <;> simp [emittedBy, hf]

theorem definedBy_cons (c : Cursor) (cs : List Cursor) :
    definedBy (c :: cs) = (c.definedLabel?.map (·, c.line)).toList ++ definedBy cs := by
  rcases hd : c.definedLabel? with _ | n <;> simp [definedBy, hd]

theorem line_of_mem_emittedBy {cs : List Cursor} {x : Nat × Form} (h : x ∈ emittedBy cs) :
    ∃ c ∈ cs, c.line = x.1 := by
  obtain ⟨c, hc, hx⟩ := List.mem_filterMap.1 h
  obtain ⟨f, -, rfl⟩ := Option.map_eq_some_iff.1 hx
  exact ⟨c, hc, rfl⟩

theorem line_of_mem_definedBy {cs : List Cursor} {d : String × Nat} (h : d ∈ definedBy cs) :
    ∃ c ∈ cs, c.line = d.2 := by
  obtain ⟨c, hc, hd⟩ := List.mem_filterMap.1 h
  obtain ⟨n, -, rfl⟩ := Option.map_eq_some_iff.1 hd
  exact ⟨c, hc, rfl⟩

end Cursor

theorem LabelTable.get?_append_eq_none {t : LabelTable} {l : List (String × LabelDef)} {n : String} :
    (⟨t.entries ++ l⟩ : LabelTable).get? n = none ↔ t.get? n = none ∧ ∀ x ∈ l, x.1 ≠ n := by
  simp [LabelTable.get?, List.find?_append, List.find?_eq_none]

/-! ## One line of the first pass -/

namespace Survey

/-- The survey after a line that reads and whose label is new: the label is bound at the
current size, and the instruction, if any, is laid out there. -/
def advance (s : Survey) (c : Cursor) : Survey where
  labels := ⟨s.labels.entries ++ (c.definedLabel?.map fun n => (n, ⟨s.size.toUInt32, c.line⟩)).toList⟩
  size := s.size + (c.form?.map Form.size).getD 0
  forms := s.forms ++ ((c.form?.map (c.line, ·)).toList).toArray
  errors := s.errors

variable {s : Survey} {c : Cursor}

theorem insert_of_get?_none {t : LabelTable} {name : String} {d : LabelDef}
    (h : t.get? name = none) : t.insert name d = .ok ⟨t.entries ++ [(name, d)]⟩ := by
  simp [LabelTable.insert, h]

/-- A line that reads, with a new label, advances the survey. -/
theorem line_of_reads (hr : c.Reads) (hnew : ∀ n, c.definedLabel? = some n → s.labels.get? n = none) :
    s.line c = s.advance c := by
  unfold Cursor.Reads at hr
  unfold Cursor.definedLabel? at hnew
  unfold line advance Cursor.definedLabel? Cursor.form?
  rcases hh : c.head with d | ⟨label, mnemonic⟩
  · simp [hh] at hr
  · simp only [hh] at hr hnew ⊢
    have hform : ∀ w after, mnemonic = some (w, after) → ∃ f, after.instruction w = .ok f := by
      rintro w after rfl
      rcases hi : after.instruction w with d | f
      · simp [hi, Except.toOption] at hr
      · exact ⟨f, rfl⟩
    rcases label with _ | ⟨name, span⟩ <;> rcases mnemonic with _ | ⟨w, after⟩
    · simp
    · obtain ⟨f, hf⟩ := hform w after rfl
      simp [hf, Except.toOption]
    · simp [insert_of_get?_none (hnew name rfl)]
    · obtain ⟨f, hf⟩ := hform w after rfl
      simp [insert_of_get?_none (hnew name rfl), hf, Except.toOption]

/-- Every line either reads, with a new label, and advances the survey, or records one
error. -/
theorem line_cases (s : Survey) (c : Cursor) :
    (c.Reads ∧ (∀ n, c.definedLabel? = some n → s.labels.get? n = none) ∧ s.line c = s.advance c) ∨
      ∃ d, (s.line c).errors = s.errors.push d := by
  by_cases hgood : c.Reads ∧ ∀ n, c.definedLabel? = some n → s.labels.get? n = none
  · exact .inl ⟨hgood.1, hgood.2, line_of_reads hgood.1 hgood.2⟩
  right
  unfold Cursor.Reads Cursor.definedLabel? at hgood
  rcases hh : c.head with d | ⟨label, mnemonic⟩
  · exact ⟨d, by simp [line, hh, reject]⟩
  simp only [hh] at hgood
  have hinstr : ∀ w after, mnemonic = some (w, after) → (∃ d, after.instruction w = .error d) ∨
      ∃ f, after.instruction w = .ok f := by
    intro w after _
    rcases after.instruction w with d | f
    · exact .inl ⟨d, rfl⟩
    · exact .inr ⟨f, rfl⟩
  rcases label with _ | ⟨name, span⟩
  · rcases mnemonic with _ | ⟨w, after⟩
    · simp at hgood
    · rcases hinstr w after rfl with ⟨d, hd⟩ | ⟨f, hf⟩
      · exact ⟨d, by simp [line, hh, hd, reject]⟩
      · simp [hf, Except.toOption] at hgood
  · rcases hg : s.labels.get? name with _ | first
    · rcases mnemonic with _ | ⟨w, after⟩
      · simp [hg] at hgood
      · rcases hinstr w after rfl with ⟨d, hd⟩ | ⟨f, hf⟩
        · exact ⟨d, by simp [line, hh, insert_of_get?_none hg, hd, reject]⟩
        · simp [hf, Except.toOption, hg] at hgood
    · exact ⟨⟨.duplicateLabel name first.line, c.line, span⟩, by simp [line, hh, LabelTable.insert, hg, reject]⟩

theorem errors_le_line (s : Survey) (c : Cursor) : s.errors.size ≤ (s.line c).errors.size := by
  rcases line_cases s c with ⟨-, -, h⟩ | ⟨d, h⟩
  · rw [h]
    rfl
  · rw [h, Array.size_push]
    omega

theorem errors_le_foldl (cs : List Cursor) (s : Survey) :
    s.errors.size ≤ (cs.foldl line s).errors.size := by
  induction cs generalizing s with
  | nil => exact le_rfl
  | cons c cs ih => exact (errors_le_line s c).trans (ih (s.line c))

/-- When the pass over some lines records no error, the first of them advanced the survey. -/
theorem advance_of_foldl_clean {c : Cursor} {cs : List Cursor} {s : Survey}
    (h : ((c :: cs).foldl line s).errors.size ≤ s.errors.size) :
    c.Reads ∧ (∀ n, c.definedLabel? = some n → s.labels.get? n = none) ∧ s.line c = s.advance c := by
  -- errors only accumulate, so the first line recorded none
  have hc : (s.line c).errors.size ≤ s.errors.size := (errors_le_foldl cs (s.line c)).trans h
  rcases line_cases s c with hadv | ⟨d, hd⟩
  · exact hadv
  · rw [hd, Array.size_push] at hc
    omega

/-- The pass over some lines records no error exactly when the first line reads, with a new
label, and the pass over the rest from the advanced survey records none. -/
theorem foldl_line_clean_cons {c : Cursor} {cs : List Cursor} {s : Survey} :
    ((c :: cs).foldl line s).errors.size ≤ s.errors.size ↔
      c.Reads ∧ (∀ n, c.definedLabel? = some n → s.labels.get? n = none) ∧
        (cs.foldl line (s.advance c)).errors.size ≤ (s.advance c).errors.size := by
  constructor
  · intro h
    obtain ⟨hr, hnew, hadv⟩ := advance_of_foldl_clean h
    rw [List.foldl_cons, hadv] at h
    exact ⟨hr, hnew, h⟩
  · rintro ⟨hr, hnew, h⟩
    rw [List.foldl_cons, line_of_reads hr hnew]
    exact h

/-- The first pass over some lines records no error exactly when each line reads and their
labels are all new and all different. -/
theorem foldl_line_clean {cs : List Cursor} {s : Survey} :
    (cs.foldl line s).errors.size ≤ s.errors.size ↔
      (∀ c ∈ cs, c.Reads) ∧ ((Cursor.definedBy cs).map Prod.fst).Nodup ∧
        ∀ d ∈ Cursor.definedBy cs, s.labels.get? d.1 = none := by
  induction cs generalizing s with
  | nil => simp [Cursor.definedBy]
  | cons c cs ih =>
    rw [foldl_line_clean_cons, ih, List.forall_mem_cons]
    rcases hdl : c.definedLabel? with _ | n
    · have hdef : Cursor.definedBy (c :: cs) = Cursor.definedBy cs := by
        simp [Cursor.definedBy, hdl]
      have hlab : (s.advance c).labels = s.labels := by
        simp only [advance, hdl, Option.map_none, Option.toList_none, List.append_nil]
      rw [hdef, hlab]
      simp only [reduceCtorEq, false_imp_iff, implies_true, true_and, and_assoc]
    · have hdef : Cursor.definedBy (c :: cs) = (n, c.line) :: Cursor.definedBy cs := by
        simp [Cursor.definedBy, hdl]
      have hlab : ∀ m, (s.advance c).labels.get? m = none ↔ s.labels.get? m = none ∧ n ≠ m := by
        simp [advance, hdl, LabelTable.get?_append_eq_none]
      rw [hdef]
      simp only [hlab, List.map_cons, List.nodup_cons, List.forall_mem_cons, List.mem_map,
        Option.some.injEq, forall_eq', forall_and]
      constructor
      · rintro ⟨hr, hsn, hrs, hnd, hfresh, hne⟩
        exact ⟨⟨hr, hrs⟩, ⟨fun ⟨x, hx, hxn⟩ => hne x hx hxn.symm, hnd⟩, hsn, hfresh⟩
      · rintro ⟨⟨hr, hrs⟩, ⟨hn, hnd⟩, hsn, hfresh⟩
        exact ⟨hr, hsn, hrs, hnd, hfresh, fun x hx hxn => hn ⟨x, hx, hxn.symm⟩⟩

/-- Lines that record no error advance the survey one by one. -/
theorem foldl_line_eq_advance {cs : List Cursor} {s : Survey}
    (h : (cs.foldl line s).errors.size ≤ s.errors.size) : cs.foldl line s = cs.foldl advance s := by
  induction cs generalizing s with
  | nil => rfl
  | cons c cs ih =>
    have hadv := (advance_of_foldl_clean h).2.2
    rw [List.foldl_cons, hadv] at h ⊢
    exact ih h

/-- Advancing over lines in order binds each label to the size so far plus the bytes of the
instructions on the lines before its own, and lays out their instructions after the others. -/
theorem foldl_advance {cs : List Cursor} (hs : cs.Pairwise (fun a b => a.line < b.line))
    (s : Survey) :
    (cs.foldl advance s).labels.entries = s.labels.entries ++ (Cursor.definedBy cs).map (fun d =>
        (d.1, ⟨(s.size + Form.totalSize ((Cursor.emittedBy cs).filter (·.1 < d.2))).toUInt32, d.2⟩)) ∧
      (cs.foldl advance s).size = s.size + Form.totalSize (Cursor.emittedBy cs) ∧
      (cs.foldl advance s).forms.toList = s.forms.toList ++ Cursor.emittedBy cs := by
  induction cs generalizing s with
  | nil => simp [Cursor.definedBy, Cursor.emittedBy]
  | cons c cs ih =>
    rw [List.pairwise_cons] at hs
    obtain ⟨hlab, hsize, hforms⟩ := ih hs.2 (s.advance c)
    have hlater : ∀ x ∈ Cursor.emittedBy cs, c.line < x.1 := fun x hx => by
      obtain ⟨c', hc', hline⟩ := Cursor.line_of_mem_emittedBy hx
      exact hline ▸ hs.1 c' hc'
    have hown : (Cursor.emittedBy (c :: cs)).filter (·.1 < c.line) = [] := by
      refine filter_line_lt_eq_nil fun x hx => ?_
      rw [Cursor.emittedBy_cons] at hx
      rcases List.mem_append.1 hx with hx | hx
      · rcases hf : c.form? with _ | f <;> simp_all
      · exact (hlater x hx).le
    have hrest : (Cursor.definedBy cs).map (fun d => (d.1, (⟨(s.size + Form.totalSize
        ((Cursor.emittedBy (c :: cs)).filter (·.1 < d.2))).toUInt32, d.2⟩ : LabelDef))) =
        (Cursor.definedBy cs).map (fun d => (d.1, (⟨((s.advance c).size + Form.totalSize
        ((Cursor.emittedBy cs).filter (·.1 < d.2))).toUInt32, d.2⟩ : LabelDef))) := by
      refine List.map_congr_left fun d hd => ?_
      obtain ⟨c', hc', hline⟩ := Cursor.line_of_mem_definedBy hd
      have hlt : c.line < d.2 := hline ▸ hs.1 c' hc'
      rw [Cursor.emittedBy_cons]
      rcases hf : c.form? with _ | f <;> simp [advance, hlt, hf, Nat.add_assoc]
    refine ⟨?_, ?_, ?_⟩
    · rw [List.foldl_cons, hlab, Cursor.definedBy_cons, List.map_append, hrest]
      rcases hdl : c.definedLabel? with _ | n <;> simp [advance, hown, hdl]
    · rw [List.foldl_cons, hsize, Cursor.emittedBy_cons]
      rcases hf : c.form? with _ | f <;> simp [advance, hf, Nat.add_assoc]
    · rw [List.foldl_cons, hforms, Cursor.emittedBy_cons]
      rcases hf : c.form? with _ | f <;> simp [advance, hf]

end Survey

/-! ## The lines of a program -/

namespace Program

/-- The lines as the assembler reads them, each from where it starts in the program text. -/
def cursors (p : Program) : List Cursor :=
  ((p.lines.zip p.offsets).zipIdx).map fun ((text, offset), line) => Cursor.start line offset text

/-- The instructions the lines carry, each with its line. -/
def emitted (p : Program) : List (Nat × Form) := Cursor.emittedBy p.cursors

/-- The labels the lines define, each with its line. -/
def definitions (p : Program) : List (String × Nat) := Cursor.definedBy p.cursors

/-- How many code bytes the lines before line `k` emit. -/
def codeStart (p : Program) (k : Nat) : Nat := Form.totalSize (p.emitted.filter (·.1 < k))

theorem survey_eq (p : Program) : p.survey = p.cursors.foldl Survey.line Survey.empty := by
  rw [survey, cursors, List.foldl_map]

theorem cursors_pairwise (p : Program) : p.cursors.Pairwise (fun a b => a.line < b.line) := by
  have hlines : p.cursors.map Cursor.line = List.range' 0 (p.lines.zip p.offsets).length := by
    rw [← List.zipIdx_map_snd 0, cursors, List.map_map]
    rfl
  rw [← List.pairwise_map, hlines]
  exact List.pairwise_lt_range'

theorem length_offsetsFrom (start : Nat) (ls : List String) :
    (offsetsFrom start ls).length = ls.length := by
  induction ls generalizing start with
  | nil => rfl
  | cons l ls ih => simp [offsetsFrom, ih]

/-- Line `j` is read from its text, starting at its offset. -/
theorem cursors_eq (p : Program) : p.cursors = (List.range p.lines.length).map fun j =>
    Cursor.start j (p.offsets.getD j 0) (p.lines.getD j "") := by
  have hlen : p.offsets.length = p.lines.length := length_offsetsFrom 0 p.lines
  apply List.ext_getElem
  · simp [cursors, hlen]
  · intro i h1 h2
    simp only [List.length_map, List.length_range] at h2
    simp [cursors, List.getD_eq_getElem?_getD, h2, hlen]

theorem emitted_pairwise (p : Program) : p.emitted.Pairwise (fun a b => a.1 < b.1) := by
  refine p.cursors_pairwise.filterMap _ fun c c' hlt x hx x' hx' => ?_
  obtain ⟨f, -, rfl⟩ := Option.map_eq_some_iff.1 hx
  obtain ⟨f', -, rfl⟩ := Option.map_eq_some_iff.1 hx'
  exact hlt

/-- The first pass over a program records no error exactly when every line reads and no
label is defined twice. -/
theorem survey_clean_iff (p : Program) :
    p.survey.errors.size = 0 ↔ (∀ c ∈ p.cursors, c.Reads) ∧ (p.definitions.map Prod.fst).Nodup := by
  have h := @Survey.foldl_line_clean p.cursors Survey.empty
  simp only [Survey.empty, LabelTable.get?_empty, List.size_toArray, List.length_nil,
    Nat.le_zero, forall_const, and_true, implies_true] at h
  rw [survey_eq, definitions]
  exact h

/-- After a first pass with no error, the table binds each label the lines define to the code
start of its line, and the instructions are laid out as the lines carry them. -/
theorem survey_of_clean {p : Program} (h : p.survey.errors.size = 0) :
    p.survey.labels.entries =
        p.definitions.map (fun d => (d.1, ⟨(p.codeStart d.2).toUInt32, d.2⟩)) ∧
      p.survey.forms.toList = p.emitted ∧ p.survey.size = Form.totalSize p.emitted := by
  have hclean : (p.cursors.foldl Survey.line Survey.empty).errors.size ≤ Survey.empty.errors.size := by
    rw [← survey_eq, h]
    exact Nat.zero_le _
  obtain ⟨hlab, hsize, hforms⟩ := Survey.foldl_advance p.cursors_pairwise Survey.empty
  rw [survey_eq, Survey.foldl_line_eq_advance hclean]
  refine ⟨?_, ?_, ?_⟩
  · rw [hlab]
    simp [Survey.empty, LabelTable.empty, codeStart, emitted, definitions]
  · rw [hforms]
    simp [Survey.empty, emitted]
  · rw [hsize]
    simp [Survey.empty, emitted]

end Program

/-! ## The second pass -/

theorem resolveAll_cons_of_ok {labels : LabelTable} {x : Nat × Form} {xs : List (Nat × Form)}
    {i : Instruction} (hx : x.2.resolve labels x.1 = .ok i) :
    resolveAll labels (x :: xs) = (i :: ·) <$> resolveAll labels xs := by
  simp only [resolveAll, List.map_cons, List.filterMap_cons, hx]
  split <;> rfl

/-- The second pass succeeds exactly when every instruction resolves, and then gives the
resolved instructions in order. -/
theorem resolveAll_eq_ok_iff {labels : LabelTable} {forms : List (Nat × Form)}
    {is : List Instruction} :
    resolveAll labels forms = .ok is ↔
      List.Forall₂ (fun x i => x.2.resolve labels x.1 = .ok i) forms is := by
  induction forms generalizing is with
  | nil => cases is <;> simp [resolveAll]
  | cons x xs ih =>
    rw [List.forall₂_cons_left_iff]
    rcases hx : x.2.resolve labels x.1 with d | i
    · simp [resolveAll, hx]
    · rw [resolveAll_cons_of_ok hx]
      rcases hrest : resolveAll labels xs with ds | is'
      · simp only [Except.map_error, reduceCtorEq, false_iff, not_exists, not_and]
        intro i' is'' _ hrest' _
        rw [ih.2 hrest'] at hrest
        cases hrest
      · simp only [Except.map_ok, Except.ok.injEq]
        constructor
        · rintro rfl
          exact ⟨i, is', rfl, ih.1 hrest, rfl⟩
        · rintro ⟨i', is'', hi, hrest', rfl⟩
          cases hi
          rw [ih.2 hrest'] at hrest
          cases hrest
          rfl

/-- Resolving keeps an instruction's size: a label operand takes its five bytes either way. -/
theorem Form.size_of_resolve {labels : LabelTable} {line : Nat} {f : Form} {i : Instruction}
    (h : f.resolve labels line = .ok i) : i.size = f.size := by
  cases f with
  | fixed j =>
    cases h
    rfl
  | toLabel op isTarget name span =>
    simp only [Form.resolve] at h
    split at h
    · cases h
      simp [Instruction.size, Form.size]
    · cases h

/-! ## Where the instructions land -/

/-- Instructions laid out from `n` in the order of their lines stand each at `n` plus the
bytes of the instructions on earlier lines. -/
theorem forall₂_layout {R : Nat × Form → Instruction → Prop}
    (hR : ∀ x i, R x i → i.size = x.2.size) {E : List (Nat × Form)} {is : List Instruction}
    (hE : E.Pairwise (fun a b => a.1 < b.1)) (h : List.Forall₂ R E is) (n : Nat) :
    List.Forall₂ (fun x e => e.1 = n + Form.totalSize (E.filter (·.1 < x.1)) ∧ R x e.2)
      E (Instruction.layout n is) := by
  induction h generalizing n with
  | nil => exact .nil
  | @cons x i E is hxi _ ih =>
    rw [List.pairwise_cons] at hE
    refine .cons ⟨?_, hxi⟩ ?_
    · have hnone : (x :: E).filter (·.1 < x.1) = [] :=
        filter_line_lt_eq_nil (List.forall_mem_cons.2 ⟨le_rfl, fun y hy => (hE.1 y hy).le⟩)
      simp [hnone]
    · refine ((List.forall₂_and_left _ _).2 ⟨hE.1, ih hE.2 (n + i.size)⟩).imp ?_
      rintro y e ⟨hxy, he, hr⟩
      refine ⟨?_, hr⟩
      rw [he, List.filter_cons_of_pos (by simpa using hxy), Form.totalSize_cons, hR x i hxi]
      omega

/-- The bytes before line `k` are those before the first instruction on line `k` or later,
or all of them when there is none. -/
theorem totalSize_filter_eq_find {R : Nat × Form → Instruction → Prop}
    (hR : ∀ x i, R x i → i.size = x.2.size) {E : List (Nat × Form)} {is : List Instruction}
    (hE : E.Pairwise (fun a b => a.1 < b.1)) (h : List.Forall₂ R E is) (n k : Nat) :
    n + Form.totalSize (E.filter (·.1 < k)) =
      (((E.zip (Instruction.layout n is)).find? (k ≤ ·.1.1)).map (·.2.1)).getD
        (n + Form.totalSize E) := by
  induction h generalizing n with
  | nil => simp
  | @cons x i E is hxi _ ih =>
    rw [List.pairwise_cons] at hE
    by_cases hk : k ≤ x.1
    · have hnone : (x :: E).filter (·.1 < k) = [] :=
        filter_line_lt_eq_nil (List.forall_mem_cons.2 ⟨hk, fun y hy => hk.trans (hE.1 y hy).le⟩)
      simp [Instruction.layout, hnone, hk]
    · have hlt : x.1 < k := by omega
      have hfind : ((x, (n, i)) :: E.zip (Instruction.layout (n + i.size) is)).find? (k ≤ ·.1.1) =
          (E.zip (Instruction.layout (n + i.size) is)).find? (k ≤ ·.1.1) := by
        simp [hk]
      have hall : n + Form.totalSize (x :: E) = n + i.size + Form.totalSize E := by
        rw [Form.totalSize_cons, hR x i hxi]
        omega
      rw [Instruction.layout, List.zip_cons_cons, hfind, hall, ← ih hE.2 (n + i.size),
        List.filter_cons_of_pos (by simpa using hlt), Form.totalSize_cons, hR x i hxi]
      omega

/-- The code bytes of instructions are as many as their forms take. -/
theorem length_flatMap_encode {R : Nat × Form → Instruction → Prop}
    (hR : ∀ x i, R x i → i.size = x.2.size) {E : List (Nat × Form)} {is : List Instruction}
    (h : List.Forall₂ R E is) : (is.flatMap Instruction.encode).length = Form.totalSize E := by
  induction h with
  | nil => rfl
  | @cons x i E is hxi _ ih => simp [ih, hR x i hxi]

/-! ## Exact resolution -/

/-- What an instruction line of `p` becomes in its code: the instruction itself, or, for one
that names a label, its opcode with the code start of the label's line, as a 32-bit word. -/
def Form.Yields (p : Program) : Form → Instruction → Prop
  | .fixed i, j => j = i
  | .toLabel op _ name _, j => ∃ k, (name, k) ∈ p.definitions ∧ j.opcode = op ∧
      j.operand = .imm (Int32.ofNat (p.codeStart k))

/-- With the table the first pass builds, each line's instruction resolves to what it yields. -/
theorem Form.yields_of_resolve {p : Program} {labels : LabelTable}
    (hlab : labels.entries = p.definitions.map (fun d => (d.1, ⟨(p.codeStart d.2).toUInt32, d.2⟩)))
    {f : Form} {line : Nat} {i : Instruction} (h : f.resolve labels line = .ok i) : f.Yields p i := by
  cases f with
  | fixed j =>
    cases h
    rfl
  | toLabel op isTarget name span =>
    simp only [Form.resolve] at h
    split at h
    · rename_i d hd
      cases h
      obtain ⟨e, he, rfl⟩ := Option.map_eq_some_iff.1 hd
      have hname := List.find?_some he
      obtain ⟨⟨n, k⟩, hk, rfl⟩ := List.mem_map.1 (hlab ▸ List.mem_of_find?_eq_some he)
      simp only [beq_iff_eq] at hname
      subst hname
      exact ⟨k, hk, by simp, by simp⟩
    · cases h

/-- A program assembles when its first pass finds no error and its second resolves every
instruction; the assembly holds the resolved instructions and the first pass's table. -/
theorem Program.assemble_eq_ok_iff {p : Program} {a : Assembly} :
    p.assemble = .ok a ↔ p.survey.errors.size = 0 ∧
      resolveAll p.survey.labels p.survey.forms.toList = .ok a.instructions ∧
        a.labels = p.survey.labels := by
  unfold Program.assemble
  dsimp only
  by_cases he : p.survey.errors.size = 0
  · have he' := Array.size_eq_zero_iff.1 he
    rcases hr : resolveAll p.survey.labels p.survey.forms.toList with ds | is
    · simp [he']
    · rcases a with ⟨is', labels⟩
      simp only [he', Array.isEmpty_empty, Bool.not_true, Bool.false_eq_true, if_false,
        Except.ok.injEq, Assembly.mk.injEq, Array.size_empty, true_and]
      exact ⟨fun ⟨h1, h2⟩ => ⟨h1, h2.symm⟩, fun ⟨h1, h2⟩ => ⟨h1, h2.symm⟩⟩
  · have he' : p.survey.errors.isEmpty = false := by simpa using he
    simp [he', he]

namespace Program

variable {p : Program} {a : Assembly}

/-- The instructions of an assembly are the lines' instructions, each resolved with the
first pass's table. -/
theorem resolve_emitted (h : p.assemble = .ok a) :
    List.Forall₂ (fun x i => x.2.resolve p.survey.labels x.1 = .ok i) p.emitted a.instructions := by
  obtain ⟨hclean, hres, -⟩ := assemble_eq_ok_iff.1 h
  rw [(survey_of_clean hclean).2.1] at hres
  exact resolveAll_eq_ok_iff.1 hres

theorem size_of_resolve_emitted :
    ∀ (x : Nat × Form) i, x.2.resolve p.survey.labels x.1 = .ok i → i.size = x.2.size :=
  fun _ _ hx => Form.size_of_resolve hx

/-- The table of an assembly binds each label the lines define, once and in order, to the code
start of its line. -/
theorem assemble_labels (h : p.assemble = .ok a) :
    (p.definitions.map Prod.fst).Nodup ∧
      a.labels.entries = p.definitions.map (fun d => (d.1, ⟨(p.codeStart d.2).toUInt32, d.2⟩)) := by
  obtain ⟨hclean, -, hlabels⟩ := assemble_eq_ok_iff.1 h
  exact ⟨((survey_clean_iff p).1 hclean).2, hlabels ▸ (survey_of_clean hclean).1⟩

/-- The instructions of an assembly stand each at the code start of its line, and are what
their lines yield. -/
theorem assemble_layout (h : p.assemble = .ok a) :
    List.Forall₂ (fun x e => e.1 = p.codeStart x.1 ∧ x.2.Yields p e.2) p.emitted
      (Instruction.layout 0 a.instructions) := by
  obtain ⟨hclean, -, -⟩ := assemble_eq_ok_iff.1 h
  refine (forall₂_layout size_of_resolve_emitted p.emitted_pairwise (resolve_emitted h) 0).imp ?_
  rintro x e ⟨he, hr⟩
  exact ⟨by simpa [codeStart] using he, Form.yields_of_resolve (survey_of_clean hclean).1 hr⟩

/-- The code start of any line is where the first instruction on it or after it stands, or
the end of the code. -/
theorem codeStart_eq_find (h : p.assemble = .ok a) (k : Nat) :
    p.codeStart k = (((p.emitted.zip (Instruction.layout 0 a.instructions)).find?
      (k ≤ ·.1.1)).map (·.2.1)).getD a.payload.length := by
  have hfind := totalSize_filter_eq_find size_of_resolve_emitted p.emitted_pairwise
    (resolve_emitted h) 0 k
  rw [Nat.zero_add, Nat.zero_add] at hfind
  rw [codeStart, hfind, Assembly.payload,
    length_flatMap_encode size_of_resolve_emitted (resolve_emitted h)]

end Program

/-- Assembly resolves labels exactly. The table binds the labels the lines define, each once and
in order, to the code start of its line. The code lists back as one entry for each line with an
instruction, in order, at the code start of that line, each what its line yields; and the code
start of any line is where the first instruction on it or after it stands, or the end of the
code. -/
theorem assemble_resolves_labels {p : Program} {a : Assembly} (h : p.assemble = .ok a) :
    (p.definitions.map Prod.fst).Nodup ∧
      a.labels.entries = p.definitions.map (fun d => (d.1, ⟨(p.codeStart d.2).toUInt32, d.2⟩)) ∧
      ∃ L, listing a.payload.toArray = .ok L ∧
        List.Forall₂ (fun x e => e.1 = p.codeStart x.1 ∧ x.2.Yields p e.2) p.emitted L ∧
        ∀ k, p.codeStart k =
          (((p.emitted.zip L).find? (k ≤ ·.1.1)).map (·.2.1)).getD a.payload.length := by
  obtain ⟨hnd, hlab⟩ := Program.assemble_labels h
  exact ⟨hnd, hlab, Instruction.layout 0 a.instructions, listing_flatMap_encode a.instructions,
    Program.assemble_layout h, Program.codeStart_eq_find h⟩

/-- A jump forward to a label and one back: both land where the labels stand. -/
theorem assemble_resolves_labels_both_ways :
    (⟨["jmp end", "back: hlt", "end: jmp back"]⟩ : Program).assemble =
        .ok ⟨[.jump 6, .halt, .jump 5], ⟨[("back", ⟨5, 1⟩), ("end", ⟨6, 2⟩)]⟩⟩ ∧
      (((⟨["jmp end", "back: hlt", "end: jmp back"]⟩ : Program).definitions.map Prod.fst).Nodup ∧
      (⟨[("back", ⟨5, 1⟩), ("end", ⟨6, 2⟩)]⟩ : LabelTable).entries =
        (⟨["jmp end", "back: hlt", "end: jmp back"]⟩ : Program).definitions.map (fun d =>
          (d.1, ⟨((⟨["jmp end", "back: hlt", "end: jmp back"]⟩ : Program).codeStart d.2).toUInt32, d.2⟩)) ∧
      ∃ L, listing (Assembly.payload ⟨[.jump 6, .halt, .jump 5],
          ⟨[("back", ⟨5, 1⟩), ("end", ⟨6, 2⟩)]⟩⟩).toArray = .ok L ∧
        List.Forall₂ (fun x e => e.1 = (⟨["jmp end", "back: hlt", "end: jmp back"]⟩ : Program).codeStart x.1 ∧
          x.2.Yields ⟨["jmp end", "back: hlt", "end: jmp back"]⟩ e.2)
          (⟨["jmp end", "back: hlt", "end: jmp back"]⟩ : Program).emitted L ∧
        ∀ k, (⟨["jmp end", "back: hlt", "end: jmp back"]⟩ : Program).codeStart k =
          ((((⟨["jmp end", "back: hlt", "end: jmp back"]⟩ : Program).emitted.zip L).find?
            (k ≤ ·.1.1)).map (·.2.1)).getD
            (Assembly.payload ⟨[.jump 6, .halt, .jump 5], ⟨[("back", ⟨5, 1⟩), ("end", ⟨6, 2⟩)]⟩⟩).length) :=
  have h : (⟨["jmp end", "back: hlt", "end: jmp back"]⟩ : Program).assemble =
      .ok ⟨[.jump 6, .halt, .jump 5], ⟨[("back", ⟨5, 1⟩), ("end", ⟨6, 2⟩)]⟩⟩ := by
    rfl
  ⟨h, assemble_resolves_labels h⟩

/-! ## Past `2 ^ 31` bytes

Offsets are bound as 32-bit words and become signed operands: a label whose line starts past
`2 ^ 31` bytes of code is jumped to with a negative operand. The program of `M` jumps to a
label on the line after them shows it, for every `M`.
-/

/-- `M` lines `jmp l`, then `l: hlt`. -/
def jumpsToEnd (M : Nat) : Program := ⟨List.replicate M "jmp l" ++ ["l: hlt"]⟩

@[simp] theorem Cursor.line_start (line off : Nat) (text : String) :
    (Cursor.start line off text).line = line := rfl

theorem Form.totalSize_of_size_eq {xs : List (Nat × Form)} {w : Nat} (h : ∀ x ∈ xs, x.2.size = w) :
    Form.totalSize xs = w * xs.length := by
  induction xs with
  | nil => simp
  | cons x xs ih =>
    rw [Form.totalSize_cons, h x List.mem_cons_self, ih fun y hy => h y (List.mem_cons_of_mem x hy),
      List.length_cons, Nat.mul_succ]
    omega

theorem Cursor.reads_of_form? {c : Cursor} {f : Form} (h : c.form? = some f) : c.Reads := by
  unfold Cursor.form? at h
  unfold Cursor.Reads
  split at h
  · rename_i hh
    rw [hh]
    simp [h]
  · cases h

section JumpsToEnd

theorem chars_jmp : "jmp l".toList = ['j', 'm', 'p', ' ', 'l'] := by decide

theorem chars_hlt : "l: hlt".toList = ['l', ':', ' ', 'h', 'l', 't'] := by decide

theorem ofMnemonic?_jmp : Opcode.ofMnemonic? "jmp" = some .jump := by decide

theorem ofMnemonic?_hlt : Opcode.ofMnemonic? "hlt" = some .halt := by decide

theorem ofName?_l : Register.ofName? "l" = none := by decide

variable (line off : Nat)

theorem form?_jmp :
    (Cursor.start line off "jmp l").form? = some (.toLabel .jump rfl "l" ⟨off + 4, 1⟩) := by
  simp only [Cursor.start, chars_jmp, Cursor.form?, Cursor.head, Cursor.nextWord?,
    Cursor.skipBlanks, Cursor.instruction, Word.text]
  simp +decide [ofMnemonic?_jmp, Cursor.operand?, Cursor.bracketed?, Cursor.skipBlanks,
    Cursor.nextWord?, classify, ofName?_l, Word.text]
  rfl

theorem definedLabel?_jmp : (Cursor.start line off "jmp l").definedLabel? = none := by
  rfl

theorem form?_hlt : (Cursor.start line off "l: hlt").form? = some (.fixed .halt) := by
  simp only [Cursor.start, chars_hlt, Cursor.form?, Cursor.head, Cursor.nextWord?,
    Cursor.skipBlanks, Cursor.instruction, Word.text]
  simp +decide [ofMnemonic?_hlt]
  rfl

theorem definedLabel?_hlt : (Cursor.start line off "l: hlt").definedLabel? = some "l" := by
  simp only [Cursor.start, chars_hlt, Cursor.definedLabel?, Cursor.head, Cursor.nextWord?,
    Cursor.skipBlanks]
  simp +decide [ofName?_l]

theorem jumpsToEnd_cursors (M : Nat) : (jumpsToEnd M).cursors =
    (List.range M).map (fun j => Cursor.start j ((jumpsToEnd M).offsets.getD j 0) "jmp l") ++
      [Cursor.start M ((jumpsToEnd M).offsets.getD M 0) "l: hlt"] := by
  have hlen : (jumpsToEnd M).lines.length = M + 1 := by simp [jumpsToEnd]
  rw [Program.cursors_eq, hlen, List.range_succ, List.map_append, List.map_singleton]
  congr 1
  · refine List.map_congr_left fun j hj => ?_
    have hj : j < M := List.mem_range.1 hj
    simp [jumpsToEnd, List.getD_eq_getElem?_getD, List.getElem?_append_left, hj]
  · simp [jumpsToEnd, List.getD_eq_getElem?_getD]

theorem jumpsToEnd_definitions (M : Nat) : (jumpsToEnd M).definitions = [("l", M)] := by
  rw [Program.definitions, jumpsToEnd_cursors, Cursor.definedBy, List.filterMap_append,
    List.filterMap_map]
  simp [definedLabel?_jmp, definedLabel?_hlt]

theorem jumpsToEnd_emitted (M : Nat) : (jumpsToEnd M).emitted =
    (List.range M).map (fun j => (j, .toLabel .jump rfl "l" ⟨(jumpsToEnd M).offsets.getD j 0 + 4, 1⟩)) ++
      [(M, .fixed .halt)] := by
  rw [Program.emitted, jumpsToEnd_cursors, Cursor.emittedBy, List.filterMap_append,
    List.filterMap_map]
  simp [form?_jmp, form?_hlt]

/-- The label stands after `M` jumps of five bytes each. -/
theorem jumpsToEnd_codeStart (M : Nat) : (jumpsToEnd M).codeStart M = 5 * M := by
  rw [Program.codeStart, jumpsToEnd_emitted, List.filter_append,
    List.filter_eq_self.2 (by simp), List.filter_eq_nil_iff.2 (by simp), List.append_nil,
    @Form.totalSize_of_size_eq _ 5 (by simp [Form.size])]
  simp

/-- `M` jumps to a label after them assemble, each to the label's code start as a signed word. -/
theorem jumpsToEnd_assemble (M : Nat) : (jumpsToEnd M).assemble =
    .ok ⟨List.replicate M (.jump (Int32.ofNat (5 * M))) ++ [.halt], ⟨[("l", ⟨(5 * M).toUInt32, M⟩)]⟩⟩ := by
  have hclean : (jumpsToEnd M).survey.errors.size = 0 := by
    rw [Program.survey_clean_iff, jumpsToEnd_definitions]
    refine ⟨fun c hc => ?_, by simp⟩
    rw [jumpsToEnd_cursors] at hc
    simp only [List.mem_append, List.mem_map, List.mem_range, List.mem_singleton] at hc
    rcases hc with ⟨j, -, rfl⟩ | rfl
    · exact Cursor.reads_of_form? (form?_jmp _ _)
    · exact Cursor.reads_of_form? (form?_hlt _ _)
  obtain ⟨hlab, hforms, -⟩ := Program.survey_of_clean hclean
  rw [jumpsToEnd_definitions, List.map_singleton, jumpsToEnd_codeStart] at hlab
  have hget : (jumpsToEnd M).survey.labels.get? "l" = some ⟨(5 * M).toUInt32, M⟩ := by
    simp [LabelTable.get?, hlab]
  refine Program.assemble_eq_ok_iff.2 ⟨hclean, ?_, (congrArg LabelTable.mk hlab).symm⟩
  have hjumps : List.replicate M (Instruction.jump (Int32.ofNat (5 * M))) =
      (List.range M).map fun _ => .jump (Int32.ofNat (5 * M)) := by
    simp
  rw [hforms, jumpsToEnd_emitted, resolveAll_eq_ok_iff, hjumps]
  refine List.rel_append ?_ (.cons rfl .nil)
  rw [List.forall₂_map_left_iff, List.forall₂_map_right_iff, List.forall₂_same]
  intro j _
  simp only [Form.resolve, hget]
  rfl

/-- From `2 ^ 31` bytes on, a label operand wraps to a negative word: the label after 429496730
jumps stands at 2147483650, and the first jump, at offset 0, lists back with an operand whose
integer value is -2147483646. -/
theorem label_target_wraps :
    (jumpsToEnd 429496730).codeStart 429496730 = 2147483650 ∧
      ∃ a L, (jumpsToEnd 429496730).assemble = .ok a ∧
        a.labels.entries = [("l", ⟨2147483650, 429496730⟩)] ∧
        listing a.payload.toArray = .ok L ∧
        L.head? = some (0, .jump (Int32.ofNat 2147483650)) ∧
        (Int32.ofNat 2147483650).toInt = -2147483646 := by
  refine ⟨jumpsToEnd_codeStart 429496730, _, _, jumpsToEnd_assemble 429496730, rfl,
    listing_flatMap_encode _, rfl, by decide⟩

end JumpsToEnd

end StackMachine
