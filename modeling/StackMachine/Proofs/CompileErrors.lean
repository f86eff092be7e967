import Mathlib
import StackMachine.Proofs.LineGrammar
/-!
# How assembly fails

A program that does not assemble fails in one of its two passes, never both. The first pass
reports one error for each line that is not in the line grammar or that defines a label an
earlier line already defines, in line order; its errors are all the line's text can show,
never a label missing from the table. Only when it reports none does the second pass run, and
then every error is a jump or call to a label no line defines, one per such line.
-/

namespace StackMachine

/-! ## Errors a line shows by itself -/

/-- An error the text of one line shows by itself: neither a label missing from the table nor
one bound twice, which only the other lines can tell. -/
def AsmError.Local : AsmError → Prop
  | .unresolvedLabel _ => False
  | .duplicateLabel _ _ => False
  | _ => True

/-- A diagnostic of line `k` that the line's text shows by itself. -/
def Diagnostic.LocalTo (k : Nat) (d : Diagnostic) : Prop := d.line = k ∧ d.error.Local

theorem classify_error_local {w : Word} {e : AsmError} (h : classify w = .error e) : e.Local := by
  unfold classify at h
  split at h
  · split at h <;> cases h
    trivial
  · split at h
    · cases h
    · split at h <;> cases h
      trivial

namespace Cursor

variable {c : Cursor} {d : Diagnostic}

theorem fail_localTo {α : Type} {e : AsmError} {span : Span}
    (h : (c.fail e span : Except Diagnostic α) = .error d) (he : e.Local) : d.LocalTo c.line := by
  cases h
  exact ⟨rfl, he⟩

theorem bracketed?_error (h : c.bracketed? = .error d) : d.LocalTo c.line := by
  unfold bracketed? at h
  dsimp only at h
  split at h
  · split at h
    · exact fail_localTo h trivial
    · split at h
      · exact fail_localTo h trivial
      · cases h
  · cases h

theorem checkBrackets_error {w : Word} (h : c.checkBrackets w = .error d) : d.LocalTo c.line := by
  unfold checkBrackets at h
  split at h
  · exact fail_localTo h trivial
  · split at h
    · exact fail_localTo h trivial
    · cases h

theorem operand?_error (h : c.operand? = .error d) : d.LocalTo c.line := by
  unfold operand? at h
  simp only [bind, Except.bind, pure, Except.pure] at h
  rcases hb : c.bracketed? with e | _ | ⟨w, next⟩ <;> rw [hb] at h
  · cases h
    exact bracketed?_error hb
  · rcases hn : c.nextWord? with _ | ⟨w, next⟩ <;> simp only [hn] at h
    · cases h
    rcases hc : c.checkBrackets w with e | ⟨⟩ <;> simp only [hc] at h
    · cases h
      exact checkBrackets_error hc
    rcases hcl : classify w with e | arg <;> simp only [hcl] at h
    · exact fail_localTo h (classify_error_local hcl)
    · cases h
  · rcases hcl : classify w with e | arg <;> simp only [hcl] at h
    · exact fail_localTo h (classify_error_local hcl)
    · cases h

theorem form_error {op : Opcode} {span : Span} {o? : Option OperandSyntax}
    (h : c.form op span o? = .error d) : d.LocalTo c.line := by
  unfold form at h
  split at h
  case h_3 | h_4 => exact fail_localTo h trivial
  case h_5 =>
    split at h
    · exact fail_localTo h trivial
    · split at h <;> first | exact fail_localTo h trivial | cases h
  case h_6 =>
    split at h
    · split at h <;> first | exact fail_localTo h trivial | cases h
    · exact fail_localTo h trivial
  all_goals cases h

theorem instruction_error {m : Word} (h : c.instruction m = .error d) : d.LocalTo c.line := by
  unfold instruction at h
  simp only [bind, Except.bind, pure, Except.pure] at h
  rcases hop : Opcode.ofMnemonic? m.text with _ | op <;> simp only [hop] at h
  · exact fail_localTo h trivial
  rcases hr : c.operand? with e | read <;> simp only [hr] at h
  · cases h
    exact operand?_error hr
  rcases hf : c.form op m.span (read.map (·.1)) with e | f <;> simp only [hf] at h
  · cases h
    exact form_error hf
  rcases hn : ((read.map (·.2)).getD c).nextWord? with _ | ⟨extra, _⟩ <;> simp only [hn] at h
  · cases h
  rcases hb : c.checkBrackets extra with e | ⟨⟩ <;> simp only [hb] at h
  · cases h
    exact checkBrackets_error hb
  · exact fail_localTo h trivial

theorem head_error (h : c.head = .error d) : d.LocalTo c.line := by
  unfold head at h
  split at h
  · cases h
  · dsimp only at h
    split at h
    · split at h
      · exact fail_localTo h trivial
      · cases h
    · cases h

theorem nextWord?_line {w : Word} {c' : Cursor} (h : c.nextWord? = some (w, c')) :
    c'.line = c.line := by
  obtain ⟨-, -, -, -, -, -, -, -, hl⟩ := nextWord?_sound h
  exact hl

/-- The instruction of a line is read on that line. -/
theorem line_of_head {h : Head} {w : Word} {after : Cursor} (hh : c.head = .ok h)
    (hm : h.mnemonic = some (w, after)) : after.line = c.line := by
  rcases head_eq_ok_iff.1 hh with ⟨rfl, -⟩ | ⟨w0, next, name, hn, -, -, rfl⟩
  · exact nextWord?_line hm
  · rw [nextWord?_line hm, nextWord?_line hn]

end Cursor

theorem LabelTable.get?_append (t : LabelTable) (l : List (String × LabelDef)) (n : String) :
    (⟨t.entries ++ l⟩ : LabelTable).get? n = (t.get? n).or ((l.find? (·.1 == n)).map (·.2)) := by
  simp [LabelTable.get?, List.find?_append, Option.map_or]

/-! ## What the first pass reports -/

/-- Line `c` is one the first pass reports, among lines that define the labels `defs`: its
code is not in the line grammar, or it defines a label that `defs` gives to an earlier line. -/
def Cursor.Rejected (defs : List (String × Nat)) (c : Cursor) : Prop :=
  (¬ ∃ st : Statement, st.SpelledBy c.code) ∨
    ∃ n j, c.definedLabel? = some n ∧ (n, j) ∈ defs ∧ j < c.line

/-- What the first pass reports for line `c`, among lines that define `defs`: an error on that
line, never a missing label, and a duplicate label exactly when an earlier line defines the
line's label, naming the first line that does. -/
def Diagnostic.Reports (defs : List (String × Nat)) (c : Cursor) (d : Diagnostic) : Prop :=
  d.line = c.line ∧ (∀ n, d.error ≠ .unresolvedLabel n) ∧
    ∀ n j, d.error = .duplicateLabel n j ↔
      c.definedLabel? = some n ∧ (defs.find? (·.1 == n)).map (·.2) = some j ∧ j < c.line

/-- The first pass's verdict on line `c`: an error exactly when the line is rejected, and then
one that `Reports` describes. -/
def Cursor.Verdict (defs : List (String × Nat)) (c : Cursor) (e : Option Diagnostic) : Prop :=
  (e.isSome ↔ c.Rejected defs) ∧ ∀ d ∈ e, d.Reports defs c

section Earlier

variable {D R : List (String × Nat)} {k : Nat}

/-- Among definitions listed in line order, those before line `k` are a prefix. -/
theorem mem_append_lt (hD : ∀ x ∈ D, x.2 < k) (hR : ∀ x ∈ R, k ≤ x.2) (n : String) (j : Nat) :
    ((n, j) ∈ D ++ R ∧ j < k) ↔ (n, j) ∈ D := by
  constructor
  · rintro ⟨hm, hj⟩
    rcases List.mem_append.1 hm with h | h
    · exact h
    · exact absurd (hR _ h) (Nat.not_le.2 hj)
  · intro h
    exact ⟨List.mem_append_left R h, hD _ h⟩

theorem find?_append_lt (hD : ∀ x ∈ D, x.2 < k) (hR : ∀ x ∈ R, k ≤ x.2) (n : String) (j : Nat) :
    (((D ++ R).find? (·.1 == n)).map (·.2) = some j ∧ j < k) ↔
      (D.find? (·.1 == n)).map (·.2) = some j := by
  rw [List.find?_append, Option.map_or]
  cases hd : D.find? (·.1 == n) with
  | none =>
    simp only [Option.map_none, Option.none_or, reduceCtorEq, iff_false, not_and, Nat.not_lt]
    intro hr
    obtain ⟨y, hy, rfl⟩ := Option.map_eq_some_iff.1 hr
    exact hR y (List.mem_of_find?_eq_some hy)
  | some x =>
    have hx := hD x (List.mem_of_find?_eq_some hd)
    simp only [Option.map_some, Option.some_or, Option.some.injEq, and_iff_left_iff_imp]
    rintro rfl
    exact hx

end Earlier

/-! ## One line of the first pass -/

namespace Survey

variable {s : Survey} {c : Cursor}

/-- A line binds its label when the table does not have it yet, whether or not the rest of
the line reads. -/
theorem line_labels (s : Survey) (c : Cursor) :
    (s.line c).labels = ⟨s.labels.entries ++
      ((c.definedLabel?.filter fun n => (s.labels.get? n).isNone).map
        fun n => (n, (⟨s.size.toUInt32, c.line⟩ : LabelDef))).toList⟩ := by
  unfold line Cursor.definedLabel?
  rcases hh : c.head with d | ⟨label, mnemonic⟩
  · simp [reject]
  rcases label with _ | ⟨name, span⟩
  · simp only [Option.map_none, Option.filter_none, Option.toList_none, List.append_nil]
    rcases mnemonic with _ | ⟨w, after⟩
    · rfl
    · dsimp only
      split <;> rfl
  · rcases hg : s.labels.get? name with _ | first
    · simp only [insert_of_get?_none hg, Option.map_some, Option.filter_some, hg,
        Option.isNone_none, if_true, Option.toList_some]
      rcases mnemonic with _ | ⟨w, after⟩
      · rfl
      · dsimp only
        split <;> rfl
    · simp only [LabelTable.insert, hg, reject, Option.map_some, Option.filter_some,
        Option.isNone_some, Bool.false_eq_true, if_false, Option.map_none, Option.toList_none,
        List.append_nil]

/-- A line that does not read, or whose label is bound already, records one error, on its own
line. The error is a duplicate label exactly when the line's label is bound already, and then
names the line that bound it; otherwise the line's text shows it by itself. -/
theorem line_error (s : Survey) (c : Cursor)
    (hbad : ¬ (c.Reads ∧ ∀ n, c.definedLabel? = some n → s.labels.get? n = none)) :
    ∃ d, (s.line c).errors = s.errors.push d ∧ d.line = c.line ∧
      (d.error.Local ∨ ∃ n first, c.definedLabel? = some n ∧ s.labels.get? n = some first ∧
        d.error = .duplicateLabel n first.line) ∧
      ∀ n first, c.definedLabel? = some n → s.labels.get? n = some first →
        d.error = .duplicateLabel n first.line := by
  unfold Cursor.Reads Cursor.definedLabel? at hbad
  unfold line Cursor.definedLabel?
  rcases hh : c.head with d | ⟨label, mnemonic⟩
  · obtain ⟨hl, hloc⟩ := Cursor.head_error hh
    exact ⟨d, rfl, hl, .inl hloc, fun _ _ h => nomatch h⟩
  simp only [hh] at hbad ⊢
  have hinstr : ∀ w after, mnemonic = some (w, after) → ∀ d, after.instruction w = .error d →
      d.LocalTo c.line := by
    intro w after hm d hd
    have hl := Cursor.line_of_head hh hm
    rw [← hl]
    exact Cursor.instruction_error hd
  rcases label with _ | ⟨name, span⟩
  · rcases mnemonic with _ | ⟨w, after⟩
    · simp at hbad
    rcases hd : after.instruction w with d | f
    · obtain ⟨hl, hloc⟩ := hinstr w after rfl d hd
      exact ⟨d, by simp [hd, reject], hl, .inl hloc, fun _ _ h => nomatch h⟩
    · simp [hd, Except.toOption] at hbad
  rcases hg : s.labels.get? name with _ | first
  · rcases mnemonic with _ | ⟨w, after⟩
    · simp [hg] at hbad
    rcases hd : after.instruction w with d | f
    · obtain ⟨hl, hloc⟩ := hinstr w after rfl d hd
      refine ⟨d, by simp [insert_of_get?_none hg, hd, reject], hl, .inl hloc, ?_⟩
      intro n first hn hfirst
      simp only [Option.map_some, Option.some.injEq] at hn
      rw [← hn, hg] at hfirst
      cases hfirst
    · simp [hd, Except.toOption, hg] at hbad
  · refine ⟨⟨.duplicateLabel name first.line, c.line, span⟩, by simp [LabelTable.insert, hg, reject],
      rfl, .inr ⟨name, first, rfl, hg, rfl⟩, ?_⟩
    intro n first' hn hfirst'
    simp only [Option.map_some, Option.some.injEq] at hn
    subst hn
    rw [hg] at hfirst'
    cases hfirst'
    rfl

/-- The table of `s` binds each name to the line that `D` first gives it. -/
def Tracks (s : Survey) (D : List (String × Nat)) : Prop :=
  ∀ n, (s.labels.get? n).map LabelDef.line = (D.find? (·.1 == n)).map (·.2)

variable {D : List (String × Nat)}

theorem Tracks.get?_eq_none (hs : s.Tracks D) (n : String) :
    s.labels.get? n = none ↔ ∀ j, (n, j) ∉ D := by
  rw [← Option.map_eq_none_iff (f := LabelDef.line), hs n, Option.map_eq_none_iff,
    List.find?_eq_none]
  constructor
  · intro h j hj
    simp at h
    exact h n j hj rfl
  · rintro h ⟨m, j⟩ hx hm
    simp only [beq_iff_eq] at hm
    subst hm
    exact h j hx

theorem tracks_empty : Survey.empty.Tracks [] := fun _ => rfl

/-- A line extends the table by its label's definition, when the label is new. -/
theorem Tracks.line (hs : s.Tracks D) (c : Cursor) :
    (s.line c).Tracks (D ++ Cursor.definedBy [c]) := by
  intro n
  rw [line_labels, LabelTable.get?_append, Option.map_or, List.find?_append, Option.map_or, hs n]
  cases hd : D.find? (·.1 == n) with
  | none =>
    have hn : s.labels.get? n = none := by
      rw [← Option.map_eq_none_iff (f := LabelDef.line), hs n, hd]
      rfl
    simp only [Option.map_none, Option.none_or]
    rcases hl : c.definedLabel? with _ | m
    · simp [Cursor.definedBy, hl]
    · by_cases hmn : m = n
      · subst hmn
        simp [hn, Cursor.definedBy, hl, Option.filter_some]
      · simp [Cursor.definedBy, hl, hmn]
  | some x => simp only [Option.map_some, Option.some_or]

/-- A line's label is new to the table exactly when no earlier line defines it. -/
theorem Tracks.fresh_iff {R : List (String × Nat)} (hs : s.Tracks D) (hD : ∀ x ∈ D, x.2 < c.line)
    (hR : ∀ x ∈ R, c.line ≤ x.2) :
    (∀ n, c.definedLabel? = some n → s.labels.get? n = none) ↔
      ¬ ∃ n j, c.definedLabel? = some n ∧ (n, j) ∈ D ++ R ∧ j < c.line := by
  simp only [hs.get?_eq_none, not_exists, not_and]
  constructor
  · intro h n j hn hm hj
    exact h n hn j ((mem_append_lt hD hR n j).1 ⟨hm, hj⟩)
  · intro h n hn j hm
    exact h n j hn (List.mem_append_left R hm) (hD _ hm)

end Survey

/-- One line of the first pass: it records no error when it is not rejected, and otherwise the
one error `Reports` describes, given a table that tracks the definitions of earlier lines. -/
theorem Survey.line_reports {s : Survey} {c : Cursor} {D R : List (String × Nat)}
    (hs : s.Tracks D) (hD : ∀ x ∈ D, x.2 < c.line) (hR : ∀ x ∈ R, c.line ≤ x.2) :
    (¬ c.Rejected (D ++ R) → (s.line c).errors = s.errors) ∧
      (c.Rejected (D ++ R) → ∃ d, (s.line c).errors = s.errors.push d ∧ d.Reports (D ++ R) c) := by
  have hgood : (c.Reads ∧ ∀ n, c.definedLabel? = some n → s.labels.get? n = none) ↔
      ¬ c.Rejected (D ++ R) := by
    rw [Cursor.Rejected, Cursor.reads_iff_spelled, hs.fresh_iff hD hR, not_or, not_not]
  refine ⟨fun h => ?_, fun h => ?_⟩
  · obtain ⟨hr, hn⟩ := hgood.2 h
    rw [Survey.line_of_reads hr hn]
    rfl
  obtain ⟨d, hpush, hl, hkind, hdup⟩ := Survey.line_error s c (mt hgood.1 (not_not.2 h))
  refine ⟨d, hpush, hl, fun n hn => ?_, fun n j => ?_⟩
  · rcases hkind with hloc | ⟨m, first, -, -, hm⟩
    · rw [hn] at hloc
      exact hloc
    · rw [hn] at hm
      cases hm
  rw [find?_append_lt hD hR, ← hs n, Option.map_eq_some_iff]
  constructor
  · intro he
    rcases hkind with hloc | ⟨m, first, hm, hfirst, hdm⟩
    · rw [he] at hloc
      exact hloc.elim
    · rw [he] at hdm
      cases hdm
      exact ⟨hm, first, hfirst, rfl⟩
  · rintro ⟨hm, first, hfirst, rfl⟩
    exact hdup n first hm hfirst

/-- The first pass over lines in line order, from a table that tracks the definitions `D` of
earlier lines: it adds one verdict's error, if any, for each line, in order. -/
theorem Survey.foldl_verdicts {cs : List Cursor} {s : Survey} {D : List (String × Nat)}
    (hcs : cs.Pairwise (fun a b => a.line < b.line)) (hD : ∀ x ∈ D, ∀ c ∈ cs, x.2 < c.line)
    (hs : s.Tracks D) :
    ∃ es, List.Forall₂ (Cursor.Verdict (D ++ Cursor.definedBy cs)) cs es ∧
      (cs.foldl line s).errors.toList = s.errors.toList ++ es.reduceOption := by
  induction cs generalizing s D with
  | nil => exact ⟨[], .nil, by simp⟩
  | cons c cs ih =>
    rw [List.pairwise_cons] at hcs
    have hassoc : D ++ Cursor.definedBy (c :: cs) = D ++ Cursor.definedBy [c] ++ Cursor.definedBy cs := by
      have hnil : Cursor.definedBy [] = [] := rfl
      rw [Cursor.definedBy_cons c cs, Cursor.definedBy_cons c [], hnil, List.append_nil,
        List.append_assoc]
    have hD' : ∀ x ∈ D ++ Cursor.definedBy [c], ∀ c' ∈ cs, x.2 < c'.line := by
      intro x hx c' hc'
      rcases List.mem_append.1 hx with hx | hx
      · exact hD x hx c' (List.mem_cons_of_mem c hc')
      · obtain ⟨c'', hc'', hl⟩ := Cursor.line_of_mem_definedBy hx
        rw [List.mem_singleton.1 hc''] at hl
        exact hl ▸ hcs.1 c' hc'
    obtain ⟨es, hes, herr⟩ := ih hcs.2 hD' (hs.line c)
    rw [← hassoc] at hes
    have hR : ∀ x ∈ Cursor.definedBy (c :: cs), c.line ≤ x.2 := by
      intro x hx
      obtain ⟨c'', hc'', hl⟩ := Cursor.line_of_mem_definedBy hx
      rcases List.mem_cons.1 hc'' with rfl | hc''
      · exact hl.le
      · exact hl ▸ (hcs.1 c'' hc'').le
    obtain ⟨hgood, hbad⟩ := Survey.line_reports hs (fun x hx => hD x hx c List.mem_cons_self) hR
    by_cases hrej : c.Rejected (D ++ Cursor.definedBy (c :: cs))
    · obtain ⟨d, hpush, hrep⟩ := hbad hrej
      refine ⟨some d :: es, .cons ⟨by simp [hrej], fun d' hd' => ?_⟩ hes, ?_⟩
      · cases hd'
        exact hrep
      · rw [List.foldl_cons, herr, hpush, Array.toList_push, List.reduceOption_cons_of_some,
          List.append_assoc, List.singleton_append]
    · refine ⟨none :: es, .cons ⟨by simp [hrej], fun d' hd' => nomatch hd'⟩ hes, ?_⟩
      rw [List.foldl_cons, herr, hgood hrej, List.reduceOption_cons_of_none]

namespace Cursor

variable {defs : List (String × Nat)} {cs : List Cursor} {es : List (Option Diagnostic)}

theorem Verdict.exists_reports (h : List.Forall₂ (Verdict defs) cs es) {d : Diagnostic}
    (hd : d ∈ es.reduceOption) : ∃ c ∈ cs, d.Reports defs c := by
  induction h with
  | nil => simp at hd
  | @cons c e cs es hv _ ih =>
    rcases e with _ | d'
    · obtain ⟨c', hc', hr⟩ := ih (by simpa using hd)
      exact ⟨c', List.mem_cons_of_mem c hc', hr⟩
    · rw [List.reduceOption_cons_of_some] at hd
      rcases List.mem_cons.1 hd with rfl | hd
      · exact ⟨c, List.mem_cons_self, hv.2 d rfl⟩
      · obtain ⟨c', hc', hr⟩ := ih hd
        exact ⟨c', List.mem_cons_of_mem c hc', hr⟩

/-- Verdicts on lines in line order give errors in line order. -/
theorem Verdict.pairwise (h : List.Forall₂ (Verdict defs) cs es)
    (hcs : cs.Pairwise (fun a b => a.line < b.line)) :
    es.reduceOption.Pairwise (fun a b => a.line < b.line) := by
  induction h with
  | nil => exact List.Pairwise.nil
  | @cons c e cs es hv hrest ih =>
    rw [List.pairwise_cons] at hcs
    rcases e with _ | d
    · rw [List.reduceOption_cons_of_none]
      exact ih hcs.2
    · rw [List.reduceOption_cons_of_some, List.pairwise_cons]
      refine ⟨fun d' hd' => ?_, ih hcs.2⟩
      obtain ⟨c', hc', hr⟩ := Verdict.exists_reports hrest hd'
      rw [(hv.2 d rfl).1, hr.1]
      exact hcs.1 c' hc'

/-- A line has an error exactly when its verdict rejects it. -/
theorem Verdict.exists_line_iff (h : List.Forall₂ (Verdict defs) cs es)
    (hcs : cs.Pairwise (fun a b => a.line < b.line)) (k : Nat) :
    (∃ d ∈ es.reduceOption, d.line = k) ↔ ∃ c ∈ cs, c.line = k ∧ c.Rejected defs := by
  induction h with
  | nil => simp
  | @cons c e cs es hv hrest ih =>
    rw [List.pairwise_cons] at hcs
    have ih := ih hcs.2
    rcases e with _ | d
    · have hnot : ¬ c.Rejected defs := fun hr => by simpa using hv.1.2 hr
      rw [List.reduceOption_cons_of_none, ih]
      simp only [List.mem_cons, exists_eq_or_imp, hnot, and_false, false_or]
    · have hr : c.Rejected defs := hv.1.1 rfl
      have hl : d.line = c.line := (hv.2 d rfl).1
      rw [List.reduceOption_cons_of_some]
      simp only [List.mem_cons, exists_eq_or_imp, hl, ih, hr, and_true]

end Cursor

/-- The first pass over a program gives each line its verdict, and its errors are the
verdicts' errors in line order. -/
theorem Program.survey_verdicts (p : Program) :
    ∃ es, List.Forall₂ (Cursor.Verdict p.definitions) p.cursors es ∧
      p.survey.errors.toList = es.reduceOption := by
  obtain ⟨es, hes, herr⟩ := Survey.foldl_verdicts p.cursors_pairwise (D := [])
    (fun _ h => nomatch h) Survey.tracks_empty
  exact ⟨es, hes, by rw [survey_eq, herr]; rfl⟩

/-! ## The second pass -/

/-- The line and error the second pass reports for an instruction, given which names are
defined: an unresolved label when it jumps or calls to an undefined one. -/
def Form.unresolvedIn (defined : String → Bool) : Nat × Form → Option (Nat × AsmError)
  | (line, .toLabel _ _ name _) => if defined name then none else some (line, .unresolvedLabel name)
  | (_, .fixed _) => none

/-- What the second pass reports, as lines and errors: one unresolved label for each line
whose instruction names a label that no line defines. -/
def Program.unresolved (p : Program) : List (Nat × AsmError) :=
  p.emitted.filterMap (Form.unresolvedIn fun n => n ∈ p.definitions.map Prod.fst)

theorem Form.unresolvedIn_fst {defined : String → Bool} {x : Nat × Form} {y : Nat × AsmError}
    (h : Form.unresolvedIn defined x = some y) : y.1 = x.1 := by
  rcases x with ⟨line, _ | ⟨op, hop, name, span⟩⟩
  · cases h
  · simp only [Form.unresolvedIn] at h
    split at h <;> cases h
    rfl

section SecondPass

variable {labels : LabelTable} {forms : List (Nat × Form)}

/-- The second pass fails with one error for each instruction whose label the table lacks, in
order. -/
theorem resolveAll_error_map {ds : List Diagnostic} (h : resolveAll labels forms = .error ds) :
    ds ≠ [] ∧ ds.map (fun d => (d.line, d.error)) =
      forms.filterMap (Form.unresolvedIn fun n => (labels.get? n).isSome) := by
  unfold resolveAll at h
  dsimp only at h
  split at h
  · cases h
  · rename_i hne
    cases h
    refine ⟨fun he => hne (List.isEmpty_iff.2 he), ?_⟩
    rw [List.filterMap_map, List.map_filterMap]
    apply List.filterMap_congr
    rintro ⟨line, f⟩ -
    cases f with
    | fixed i => rfl
    | toLabel op hop name span =>
      simp only [Function.comp, Form.resolve, Form.unresolvedIn]
      split <;> rename_i hr <;> split at hr <;> cases hr <;> simp [*]

/-- The second pass succeeds when no instruction names a label the table lacks. -/
theorem resolveAll_ok_of (h : forms.filterMap (Form.unresolvedIn fun n => (labels.get? n).isSome) = []) :
    ∃ is, resolveAll labels forms = .ok is := by
  rcases hr : resolveAll labels forms with ds | is
  · obtain ⟨hne, hmap⟩ := resolveAll_error_map hr
    rw [h, List.map_eq_nil_iff] at hmap
    exact absurd hmap hne
  · exact ⟨is, rfl⟩

theorem Form.unresolvedIn_of_resolve {x : Nat × Form} {i : Instruction}
    (h : x.2.resolve labels x.1 = .ok i) :
    Form.unresolvedIn (fun n => (labels.get? n).isSome) x = none := by
  rcases x with ⟨line, _ | ⟨op, hop, name, span⟩⟩
  · rfl
  · simp only [Form.resolve] at h
    split at h
    · rename_i d hg
      simp [Form.unresolvedIn, hg]
    · cases h

/-- A second pass that succeeds finds no label the table lacks. -/
theorem resolveAll_ok_nil {is : List Instruction} (h : resolveAll labels forms = .ok is) :
    forms.filterMap (Form.unresolvedIn fun n => (labels.get? n).isSome) = [] := by
  have hall := resolveAll_eq_ok_iff.1 h
  clear h
  induction hall with
  | nil => rfl
  | cons hx _ ih => rw [List.filterMap_cons, Form.unresolvedIn_of_resolve hx, ih]

theorem resolveAll_error_pairwise (hf : forms.Pairwise (fun a b => a.1 < b.1)) {ds : List Diagnostic}
    (h : resolveAll labels forms = .error ds) : ds.Pairwise (fun a b => a.line < b.line) := by
  have hmap := congrArg (List.map Prod.fst) (resolveAll_error_map h).2
  rw [List.map_map] at hmap
  rw [← List.pairwise_map (f := Diagnostic.line)]
  refine (hmap ▸ (hf.filterMap _ ?_).map _ fun _ _ h => h)
  intro x x' hx y hy y' hy'
  rw [Form.unresolvedIn_fst hy, Form.unresolvedIn_fst hy']
  exact hx

end SecondPass

/-! ## Both passes -/

namespace Program

variable {p : Program}

/-- The first pass reports exactly the rejected lines, one error each, in line order, each as
`Reports` describes. -/
theorem survey_errors (p : Program) :
    p.survey.errors.toList.Pairwise (fun a b => a.line < b.line) ∧
      (∀ k, (∃ d ∈ p.survey.errors.toList, d.line = k) ↔
        ∃ c ∈ p.cursors, c.line = k ∧ c.Rejected p.definitions) ∧
      ∀ d ∈ p.survey.errors.toList, ∃ c ∈ p.cursors, d.Reports p.definitions c := by
  obtain ⟨es, hes, herr⟩ := p.survey_verdicts
  rw [herr]
  exact ⟨Cursor.Verdict.pairwise hes p.cursors_pairwise,
    Cursor.Verdict.exists_line_iff hes p.cursors_pairwise,
    fun d hd => Cursor.Verdict.exists_reports hes hd⟩

/-- The first pass finds nothing exactly when no line is rejected. -/
theorem survey_errors_eq_nil_iff (p : Program) :
    p.survey.errors.toList = [] ↔ ∀ c ∈ p.cursors, ¬ c.Rejected p.definitions := by
  have hiff := p.survey_errors.2.1
  constructor
  · intro h c hc hr
    obtain ⟨d, hd, -⟩ := (hiff c.line).2 ⟨c, hc, rfl, hr⟩
    rw [h] at hd
    cases hd
  · intro h
    refine List.eq_nil_iff_forall_not_mem.2 fun d hd => ?_
    obtain ⟨c, hc, -, hr⟩ := (hiff d.line).1 ⟨d, hd, rfl⟩
    exact h c hc hr

theorem assemble_of_survey_errors (h : p.survey.errors.toList ≠ []) :
    p.assemble = .error ⟨p.survey.errors.toList⟩ := by
  have he : p.survey.errors.isEmpty = false := by simpa using h
  simp [assemble, he]

theorem assemble_eq_error_of_clean (h : p.survey.errors.toList = []) {ds : List Diagnostic} :
    p.assemble = .error ⟨ds⟩ ↔ resolveAll p.survey.labels p.survey.forms.toList = .error ds := by
  have he : p.survey.errors.isEmpty = true := by simpa using h
  unfold assemble
  simp only [he, Bool.not_true, Bool.false_eq_true, if_false]
  split <;> simp_all

/-- After a clean first pass, the table has exactly the names the lines define. -/
theorem get?_isSome_of_clean (h : p.survey.errors.toList = []) (n : String) :
    (p.survey.labels.get? n).isSome = decide (n ∈ p.definitions.map Prod.fst) := by
  have hclean : p.survey.errors.size = 0 := by simpa using h
  rw [LabelTable.get?, (survey_of_clean hclean).1, Option.isSome_map, Bool.eq_iff_iff,
    List.find?_isSome, decide_eq_true_iff]
  simp

/-- After a clean first pass, the second pass reports what `unresolved` lists. -/
theorem unresolved_of_clean (h : p.survey.errors.toList = []) :
    p.survey.forms.toList.filterMap (Form.unresolvedIn fun n => (p.survey.labels.get? n).isSome) =
      p.unresolved := by
  have hclean : p.survey.errors.size = 0 := by simpa using h
  rw [(survey_of_clean hclean).2.1, unresolved]
  congr 2
  funext n
  exact get?_isSome_of_clean h n

end Program

namespace Program

variable {p : Program} {ds : List Diagnostic}

/-- A first-pass error reports the line of its number. -/
theorem reports_of_line {d : Diagnostic} {c : Cursor} (hd : d ∈ p.survey.errors.toList)
    (hc : c ∈ p.cursors) (hl : c.line = d.line) : d.Reports p.definitions c := by
  obtain ⟨c', hc', hrep⟩ := p.survey_errors.2.2 d hd
  have hnodup : (p.cursors.map Cursor.line).Nodup :=
    (List.pairwise_map.2 p.cursors_pairwise).imp Nat.ne_of_lt
  rwa [List.inj_on_of_nodup_map hnodup hc hc' (hl.trans hrep.1)]

/-- After a clean first pass, assembly fails with what `unresolved` lists. -/
theorem assemble_error_of_clean (h : p.survey.errors.toList = []) (hds : p.assemble = .error ⟨ds⟩) :
    ds ≠ [] ∧ ds.map (fun d => (d.line, d.error)) = p.unresolved := by
  rw [← p.unresolved_of_clean h]
  exact resolveAll_error_map ((p.assemble_eq_error_of_clean h).1 hds)

/-- Whichever pass fails, its errors come in line order. -/
theorem assemble_error_pairwise (hds : p.assemble = .error ⟨ds⟩) :
    ds.Pairwise (fun a b => a.line < b.line) := by
  by_cases h : p.survey.errors.toList = []
  · have hforms := (survey_of_clean (p := p) (by simpa using h)).2.1
    exact resolveAll_error_pairwise (hforms ▸ p.emitted_pairwise)
      ((p.assemble_eq_error_of_clean h).1 hds)
  · rw [p.assemble_of_survey_errors h] at hds
    cases hds
    exact p.survey_errors.1

/-- Assembly succeeds exactly when no line is rejected and every label operand is defined. -/
theorem assemble_ok_iff_accepted :
    (∃ a, p.assemble = .ok a) ↔ (∀ c ∈ p.cursors, ¬ c.Rejected p.definitions) ∧ p.unresolved = [] := by
  rw [← p.survey_errors_eq_nil_iff]
  constructor
  · rintro ⟨a, ha⟩
    obtain ⟨hclean, hres, -⟩ := assemble_eq_ok_iff.1 ha
    have h : p.survey.errors.toList = [] := by simpa using hclean
    rw [← p.unresolved_of_clean h]
    exact ⟨h, resolveAll_ok_nil hres⟩
  · rintro ⟨h, hnone⟩
    have hres : p.survey.forms.toList.filterMap
        (Form.unresolvedIn fun n => (p.survey.labels.get? n).isSome) = [] := by
      rw [p.unresolved_of_clean h, hnone]
    obtain ⟨is, his⟩ := resolveAll_ok_of hres
    exact ⟨⟨is, p.survey.labels⟩, assemble_eq_ok_iff.2 ⟨by simpa using h, his, rfl⟩⟩

end Program

theorem Cursor.labelName_of_definedLabel? {c : Cursor} {n : String} (h : c.definedLabel? = some n) :
    LabelName n.toList := by
  unfold Cursor.definedLabel? at h
  split at h
  · rename_i hd hh
    rcases head_eq_ok_iff.1 hh with ⟨rfl, -⟩ | ⟨w, next, name, -, -, hname, rfl⟩
    · cases h
    · simp only [Option.map_some, Option.some.injEq] at h
      subst h
      rwa [String.toList_ofList]
  · cases h

/-- A label a line defines reads, as an operand word, as that label. -/
theorem Cursor.classify_definedLabel? {c : Cursor} {n : String} (h : c.definedLabel? = some n)
    (span : Span) : classify ⟨n.toList, span⟩ = .ok (.label n) :=
  classify_eq_label_iff.2 ⟨labelName_of_definedLabel? h, by simp [Word.text]⟩

/-- How assembly fails. Errors come in line order, one per line at most. When some line is
rejected, the first pass's errors are the result: one for each rejected line, never an
unresolved label, and a duplicate label exactly on a line defining a label an earlier line
defines, naming the first line that does. When no line is rejected, the errors are the second
pass's: one unresolved label for each jump or call to a label that no line defines. Assembly
succeeds exactly when neither happens; and every label a line defines is a word that reads, as
an operand, as that label. -/
theorem assemble_errors_by_pass (p : Program) :
    (∀ ds, p.assemble = .error ⟨ds⟩ → ds.Pairwise (fun a b => a.line < b.line)) ∧
    ((∃ c ∈ p.cursors, c.Rejected p.definitions) →
      p.assemble = .error ⟨p.survey.errors.toList⟩ ∧
      (∀ k, (∃ d ∈ p.survey.errors.toList, d.line = k) ↔
        ∃ c ∈ p.cursors, c.line = k ∧ c.Rejected p.definitions) ∧
      (∀ d ∈ p.survey.errors.toList, ∀ n, d.error ≠ .unresolvedLabel n) ∧
      ∀ d ∈ p.survey.errors.toList, ∀ c ∈ p.cursors, c.line = d.line → ∀ n j,
        (d.error = .duplicateLabel n j ↔ c.definedLabel? = some n ∧
          (p.definitions.find? (·.1 == n)).map (·.2) = some j ∧ j < c.line)) ∧
    ((∀ c ∈ p.cursors, ¬ c.Rejected p.definitions) →
      ∀ ds, p.assemble = .error ⟨ds⟩ → ds.map (fun d => (d.line, d.error)) = p.unresolved) ∧
    ((∃ a, p.assemble = .ok a) ↔ (∀ c ∈ p.cursors, ¬ c.Rejected p.definitions) ∧ p.unresolved = []) ∧
    ∀ (c : Cursor) n, c.definedLabel? = some n → ∀ span, classify ⟨n.toList, span⟩ = .ok (.label n) := by
  have hclean := p.survey_errors_eq_nil_iff
  refine ⟨fun _ => p.assemble_error_pairwise, ?_,
    fun h _ hds => (p.assemble_error_of_clean (hclean.2 h) hds).2, p.assemble_ok_iff_accepted,
    fun _ _ => Cursor.classify_definedLabel?⟩
  rintro ⟨c, hc, hr⟩
  have hne : p.survey.errors.toList ≠ [] := fun h => hclean.1 h c hc hr
  refine ⟨p.assemble_of_survey_errors hne, p.survey_errors.2.1, fun d hd n => ?_,
    fun d hd c' hc' hl n j => (p.reports_of_line hd hc' hl).2.2 n j⟩
  obtain ⟨c'', -, hrep⟩ := p.survey_errors.2.2 d hd
  exact hrep.2.1 n

section LabelErrors

/-- Two lines that both define `l`. -/
def twiceDefined : Program := ⟨["l: hlt", "l: hlt"]⟩

/-- A jump to a label that no line defines. -/
def loneJump : Program := ⟨["jmp l"]⟩

theorem twiceDefined_cursors : twiceDefined.cursors =
    [Cursor.start 0 (twiceDefined.offsets.getD 0 0) "l: hlt",
      Cursor.start 1 (twiceDefined.offsets.getD 1 0) "l: hlt"] := by
  rw [Program.cursors_eq]
  simp [twiceDefined, List.range_succ]

theorem twiceDefined_definitions : twiceDefined.definitions = [("l", 0), ("l", 1)] := by
  rw [Program.definitions, twiceDefined_cursors]
  simp [Cursor.definedBy, definedLabel?_hlt]

theorem twiceDefined_rejected :
    (Cursor.start 1 (twiceDefined.offsets.getD 1 0) "l: hlt").Rejected twiceDefined.definitions :=
  .inr ⟨"l", 0, definedLabel?_hlt 1 _, by simp [twiceDefined_definitions], by decide⟩

theorem loneJump_cursors : loneJump.cursors = [Cursor.start 0 (loneJump.offsets.getD 0 0) "jmp l"] := by
  rw [Program.cursors_eq]
  simp [loneJump]

theorem loneJump_definitions : loneJump.definitions = [] := by
  rw [Program.definitions, loneJump_cursors]
  simp [Cursor.definedBy, definedLabel?_jmp]

theorem loneJump_unresolved : loneJump.unresolved = [(0, .unresolvedLabel "l")] := by
  rw [Program.unresolved, Program.emitted, loneJump_cursors, loneJump_definitions]
  simp [Cursor.emittedBy, form?_jmp, Form.unresolvedIn]

theorem loneJump_not_rejected : ∀ c ∈ loneJump.cursors, ¬ c.Rejected loneJump.definitions := by
  rw [loneJump_cursors, loneJump_definitions]
  intro c hc
  rw [List.mem_singleton.1 hc]
  rintro (hs | ⟨n, j, -, hj, -⟩)
  · exact hs ((Cursor.reads_iff_spelled _).1 (Cursor.reads_of_form? (form?_jmp _ _)))
  · cases hj

/-- Two lines defining `l` fail in the first pass, with a duplicate label on the second line
that names the first; a lone `jmp l` fails in the second, with one unresolved label on its
line. -/
theorem label_errors_by_pass :
    (twiceDefined.assemble = .error ⟨twiceDefined.survey.errors.toList⟩ ∧
      ∃ d ∈ twiceDefined.survey.errors.toList, d.line = 1 ∧ d.error = .duplicateLabel "l" 0) ∧
    ∃ ds, loneJump.assemble = .error ⟨ds⟩ ∧
      ds.map (fun d => (d.line, d.error)) = [(0, .unresolvedLabel "l")] := by
  have hc : Cursor.start 1 (twiceDefined.offsets.getD 1 0) "l: hlt" ∈ twiceDefined.cursors := by
    simp [twiceDefined_cursors]
  obtain ⟨hfail, hlines, -, hdup⟩ :=
    (assemble_errors_by_pass twiceDefined).2.1 ⟨_, hc, twiceDefined_rejected⟩
  obtain ⟨d, hd, hl⟩ := (hlines 1).2 ⟨_, hc, rfl, twiceDefined_rejected⟩
  have hfirst : (twiceDefined.definitions.find? (·.1 == "l")).map (·.2) = some 0 := by
    rw [twiceDefined_definitions]
    rfl
  refine ⟨⟨hfail, d, hd, hl, (hdup d hd _ hc hl.symm "l" 0).2 ⟨definedLabel?_hlt 1 _, hfirst,
    by decide⟩⟩, ?_⟩
  -- no line of the lone jump is rejected, so only the second pass can fail, and it does
  obtain ⟨-, -, hsecond, hok, -⟩ := assemble_errors_by_pass loneJump
  rcases ha : loneJump.assemble with e | a
  · cases e with
    | mk ds => exact ⟨ds, rfl, (hsecond loneJump_not_rejected ds ha).trans loneJump_unresolved⟩
  · rw [loneJump_unresolved] at hok
    exact absurd (hok.1 ⟨a, ha⟩).2 (by simp)

end LabelErrors

end StackMachine
