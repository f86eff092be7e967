import Mathlib
import StackMachine.Proofs.CompileErrors
import StackMachine.Proofs.SourceLines
/-!
# Where diagnostics point

Every error the assembler reports points into its own line. Its span covers characters of that
line that come before any `;`, so never a part of a comment, and when the error names a piece
of source text (a word, an operand, a label) the span covers exactly that text.

The spans come from several readers: the word span of `nextWord?`, the label name without its
`:`, the trimmed inside of a bracket, the one-byte and rest-of-word spans of `checkBrackets`, and
the unclosed bracket's span up to the last character that is not blank. `Cursor.Within` is
what each reader keeps: the cursor has read a part of its line with no `;` in it, and its
position counts that part's bytes from the line's offset. Every span a reader makes from such a
cursor covers characters of the line (`Span.Covers`). The first pass keeps this for every error
and every jump to a label it reads (`Survey.PointsInto`), and the second pass reports its
errors at those jumps' spans.

`assemble_errors_point_into_lines` puts this in terms of the program text: the span lies in
its line, its ends are character boundaries of the text, and it cuts out the text the error
names.
-/

namespace StackMachine

open Text

/-! ## Spans of a line -/

/-- The source text an error names, for the kinds that name one. -/
def AsmError.text? : AsmError → Option String
  | .unknownMnemonic w => some w
  | .invalidOperand _ found => some found
  | .invalidLiteral w => some w
  | .invalidLabel w => some w
  | .unresolvedLabel name => some name
  | .trailingInput w => some w
  | .duplicateLabel name _ => some name
  | .missingOperand _ | .unexpectedOperand _ | .bracket _ => none

/-- A span of the line whose characters are `L` and whose text starts at offset `o`, covering
its characters `m`, with no `;` before the span's end. -/
def Span.Covers (o : Nat) (L m : List Char) (sp : Span) : Prop :=
  ∃ pre post, L = pre ++ m ++ post ∧ ';' ∉ pre ++ m ∧ sp = ⟨o + byteLength pre, byteLength m⟩

/-- A diagnostic of line `k`, whose characters are `L` and whose text starts at offset `o`: its
span covers characters of the line, and they spell the text the error names. -/
def Diagnostic.Within (k o : Nat) (L : List Char) (d : Diagnostic) : Prop :=
  d.line = k ∧ ∃ m, d.span.Covers o L m ∧ ∀ t ∈ d.error.text?, String.ofList m = t

/-- A diagnostic of program `p` points into its own line: the line's characters, from the
line's offset. -/
def Diagnostic.InLine (p : Program) (d : Diagnostic) : Prop :=
  ∃ l o, p.lines[d.line]? = some l ∧ p.offsets[d.line]? = some o ∧ d.Within d.line o l.toList

/-- A cursor of line `k`, whose characters are `L` and whose text starts at offset `o`: what it
has read of the line has no `;` in it, and its position counts the bytes read. -/
def Cursor.Within (k o : Nat) (L : List Char) (c : Cursor) : Prop :=
  c.line = k ∧ ∃ pre, L = pre ++ c.rest ∧ ';' ∉ pre ∧ c.pos = o + byteLength pre

section Within

variable {k o : Nat} {L : List Char}

@[simp] theorem byteLength_singleton (ch : Char) : byteLength [ch] = ch.utf8Size := by
  simp [byteLength]

theorem Span.Covers.length_eq {sp : Span} {m : List Char} (h : sp.Covers o L m) :
    sp.length = byteLength m := by
  obtain ⟨-, -, -, -, rfl⟩ := h
  rfl

/-- A span covering `x ++ y ++ z` gives the span of `y` inside it. -/
theorem Span.Covers.sub {sp : Span} {m x y z : List Char} (h : sp.Covers o L m)
    (hm : m = x ++ y ++ z) : Span.Covers o L y ⟨sp.offset + byteLength x, byteLength y⟩ := by
  obtain ⟨pre, post, hL, hsemi, rfl⟩ := h
  refine ⟨pre ++ x, z ++ post, by simp [hL, hm], fun hmem => hsemi ?_, by simp [Nat.add_assoc]⟩
  rw [hm]
  simp only [List.mem_append] at hmem ⊢
  tauto

namespace Cursor.Within

variable {c : Cursor}

theorem start (k o : Nat) (l : String) : (Cursor.start k o l).Within k o l.toList :=
  ⟨rfl, [], rfl, List.not_mem_nil, by simp [Cursor.start]⟩

/-- Characters of the rest of the line, with no `;` among them or before them. -/
theorem covers (h : c.Within k o L) {b m r : List Char} (hc : c.rest = b ++ m ++ r)
    (hsemi : ';' ∉ b ++ m) : Span.Covers o L m ⟨c.pos + byteLength b, byteLength m⟩ := by
  obtain ⟨-, pre, hL, hpre, hpos⟩ := h
  refine ⟨pre ++ b, r, by rw [hL, hc]; simp, ?_, by rw [hpos]; simp [Nat.add_assoc]⟩
  simp only [List.mem_append] at hsemi ⊢
  tauto

/-- A cursor that moves past characters with no `;` among them stays within the line. -/
theorem advance (h : c.Within k o L) {x : List Char} {c' : Cursor} (hc : c.rest = x ++ c'.rest)
    (hsemi : ';' ∉ x) (hpos : c'.pos = c.pos + byteLength x) (hline : c'.line = c.line) :
    c'.Within k o L := by
  obtain ⟨hk, pre, hL, hpre, hp⟩ := h
  refine ⟨hline.trans hk, pre ++ x, by rw [hL, hc, List.append_assoc], ?_, ?_⟩
  · simp only [List.mem_append, not_or]
    exact ⟨hpre, hsemi⟩
  · rw [hpos, hp, byteLength_append, Nat.add_assoc]

theorem skipBlanks (h : c.Within k o L) : c.skipBlanks.Within k o L :=
  h.advance List.takeWhile_append_dropWhile.symm
    (fun hm => (blank_ne (List.mem_takeWhile_imp hm)).1 rfl) rfl rfl

theorem nextWord? (h : c.Within k o L) {w : Word} {c' : Cursor} (hn : c.nextWord? = some (w, c')) :
    w.span.Covers o L w.chars ∧ c'.Within k o L := by
  obtain ⟨b, hc, hb, -, hword, -, hspan, hpos, hline⟩ := nextWord?_sound hn
  have hsemi : ';' ∉ b ++ w.chars := by
    simp only [List.mem_append, not_or]
    exact ⟨fun hm => (blank_ne (hb _ hm)).1 rfl, fun hm => ne_semicolon_of_endsWord (hword _ hm) rfl⟩
  refine ⟨hspan ▸ h.covers hc hsemi, h.advance (by rw [hc, List.append_assoc]) hsemi ?_ hline⟩
  rw [hpos, byteLength_append, Nat.add_assoc]

end Cursor.Within

/-! ## Brackets -/

/-- The characters without their trailing blanks, then those blanks. -/
theorem trimEnd_append_blanks (cs : List Char) :
    cs = trimEnd cs ++ (cs.reverse.takeWhile isBlank).reverse := by
  rw [trimEnd, ← List.reverse_append, List.takeWhile_append_dropWhile, List.reverse_reverse]

/-- The leading blanks, the trimmed characters, then the trailing blanks. -/
theorem takeWhile_append_trim (cs : List Char) :
    cs = cs.takeWhile isBlank ++ trim cs ++
      ((cs.dropWhile isBlank).reverse.takeWhile isBlank).reverse := by
  rw [trim, trimStart, List.append_assoc, ← trimEnd_append_blanks]
  exact List.takeWhile_append_dropWhile.symm

/-- A list with `a` in it is what comes before the first `a`, that `a`, and the rest. -/
theorem exists_eq_takeWhile_cons {a : Char} {l : List Char} (h : a ∈ l) :
    ∃ rest, l = l.takeWhile (· ≠ a) ++ a :: rest := by
  induction l with
  | nil => cases h
  | cons x xs ih =>
    by_cases hx : x = a
    · exact ⟨xs, by simp [hx]⟩
    · have hxs : a ∈ xs := by
        rcases List.mem_cons.1 h with h | h
        · exact absurd h.symm hx
        · exact h
      obtain ⟨rest, hrest⟩ := ih hxs
      exact ⟨rest, by rw [List.takeWhile_cons_of_pos (by simpa using hx), List.cons_append, ← hrest]⟩

/-- The code after a `[` that a `]` closes: the inside, the `]`, and the rest; no `;` inside. -/
theorem bracket_layout {after : List Char}
    (hclosed : ((after.takeWhile (· ≠ ';')).takeWhile (· ≠ ']')).length ≠
      (after.takeWhile (· ≠ ';')).length) :
    ∃ R, after = (after.takeWhile (· ≠ ';')).takeWhile (· ≠ ']') ++ ']' :: R ∧
      ';' ∉ (after.takeWhile (· ≠ ';')).takeWhile (· ≠ ']') := by
  obtain ⟨x, more, hcode, hx⟩ := Cursor.takeWhile_append_cons hclosed
  have hxc : x = ']' := by simpa using hx
  subst hxc
  refine ⟨more ++ after.dropWhile (· ≠ ';'), ?_, fun hm => ?_⟩
  · conv_lhs => rw [← List.takeWhile_append_dropWhile (p := (· ≠ ';')) (l := after), hcode]
    simp
  · have := List.mem_takeWhile_imp ((List.takeWhile_prefix _).subset hm)
    simp at this

/-- `[` and `]` take one byte each. -/
theorem byteLength_bracket (inner : List Char) :
    byteLength ('[' :: inner ++ [']']) = byteLength inner + 2 := by
  have h1 : '['.utf8Size = 1 := rfl
  have h2 : ']'.utf8Size = 1 := rfl
  simp only [List.cons_append, byteLength_cons, byteLength_append, byteLength_nil, h1, h2]
  omega

theorem byteLength_sub_takeWhile (p : Char → Bool) (l : List Char) :
    byteLength l - byteLength (l.takeWhile p) = byteLength (l.dropWhile p) := by
  have h := congrArg byteLength (List.takeWhile_append_dropWhile (p := p) (l := l))
  rw [byteLength_append] at h
  omega

/-- No `;` in the code before a comment. -/
theorem semicolon_not_mem_code (after : List Char) : ';' ∉ after.takeWhile (· ≠ ';') :=
  fun hm => by simpa using List.mem_takeWhile_imp hm

namespace Cursor

variable {c : Cursor}

/-- Reading a bracket keeps the cursor within its line: an error's span covers the line's
characters from the `[`, and the word read is the bracket's trimmed inside. -/
theorem Within.bracketed? (h : c.Within k o L) :
    (∀ d, c.bracketed? = .error d → d.Within k o L) ∧
      ∀ w c', c.bracketed? = .ok (some (w, c')) → w.span.Covers o L w.chars ∧ c'.Within k o L := by
  have h0 := h.skipBlanks
  unfold Cursor.bracketed?
  dsimp only
  split
  · rename_i after hafter
    have hcode := semicolon_not_mem_code after
    split_ifs with hclosed hempty
    · refine ⟨fun d hd => ?_, fun w c' hw => by simp [fail] at hw⟩
      cases hd
      have hprefix := trimEnd_append_blanks ('[' :: after.takeWhile (· ≠ ';'))
      have hsemi : ';' ∉ trimEnd ('[' :: after.takeWhile (· ≠ ';')) := by
        intro hm
        have hm' := List.mem_append_left ((('[' :: after.takeWhile (· ≠ ';')).reverse.takeWhile
          isBlank).reverse) hm
        rw [← hprefix] at hm'
        rcases List.mem_cons.1 hm' with h' | h'
        · exact absurd h' (by decide)
        · exact hcode h'
      have hrest : c.skipBlanks.rest = [] ++ trimEnd ('[' :: after.takeWhile (· ≠ ';')) ++
          ((('[' :: after.takeWhile (· ≠ ';')).reverse.takeWhile isBlank).reverse ++
            after.dropWhile (· ≠ ';')) := by
        rw [hafter, List.nil_append, ← List.append_assoc, ← hprefix, List.cons_append,
          List.takeWhile_append_dropWhile]
      refine ⟨h0.1, trimEnd ('[' :: after.takeWhile (· ≠ ';')), ?_, fun t ht => (Option.not_mem_none t ht).elim⟩
      simpa using h0.covers hrest (by simpa using hsemi)
    · refine ⟨fun d hd => ?_, fun w c' hw => by simp [fail] at hw⟩
      cases hd
      obtain ⟨R, hR, hinner⟩ := bracket_layout (fun h' => hclosed (.inl h'))
      set inner := (after.takeWhile (· ≠ ';')).takeWhile (· ≠ ']')
      have hrest : c.skipBlanks.rest = [] ++ ('[' :: inner ++ [']']) ++ R := by
        rw [hafter, hR]
        simp
      have hsemi : ';' ∉ [] ++ ('[' :: inner ++ [']']) := by
        simp only [List.nil_append, List.cons_append, List.mem_cons, List.mem_append, not_or]
        exact ⟨by decide, hinner, by decide⟩
      refine ⟨h0.1, '[' :: inner ++ [']'], ?_, fun t ht => (Option.not_mem_none t ht).elim⟩
      have hcov := h0.covers hrest hsemi
      rw [byteLength_bracket] at hcov
      simpa using hcov
    · refine ⟨fun d hd => (by cases hd), fun w c' hw => ?_⟩
      simp only [Except.ok.injEq, Option.some.injEq, Prod.mk.injEq] at hw
      obtain ⟨rfl, rfl⟩ := hw
      obtain ⟨R, hR, hinner⟩ := bracket_layout (fun h' => hclosed (.inl h'))
      set inner := (after.takeWhile (· ≠ ';')).takeWhile (· ≠ ']')
      have hsplit := takeWhile_append_trim inner
      have hb : ';' ∉ ('[' :: inner.takeWhile isBlank) ++ trim inner := by
        intro hm
        rcases List.mem_cons.1 (List.cons_append ▸ hm) with h' | h'
        · exact absurd h' (by decide)
        · refine hinner ?_
          rw [hsplit]
          simp only [List.mem_append] at h' ⊢
          tauto
      refine ⟨?_, ?_⟩
      · have hrest : c.skipBlanks.rest = ('[' :: inner.takeWhile isBlank) ++ trim inner ++
            (((inner.dropWhile isBlank).reverse.takeWhile isBlank).reverse ++ ']' :: R) := by
          rw [hafter, hR]
          conv_lhs => rw [hsplit]
          simp
        have h1 : '['.utf8Size = 1 := rfl
        simpa [h1, Nat.add_assoc] using h0.covers hrest hb
      · have hsemi : ';' ∉ '[' :: inner ++ [']'] := by
          simp only [List.cons_append, List.mem_cons, List.mem_append, not_or]
          exact ⟨by decide, hinner, by decide⟩
        have hdrop : after.drop (inner.length + 1) = R := by
          rw [hR]
          simp
        refine h0.advance (x := '[' :: inner ++ [']']) ?_ hsemi ?_ rfl
        · show c.skipBlanks.rest = ('[' :: inner ++ [']']) ++ after.drop (inner.length + 1)
          rw [hafter, hdrop]
          conv_lhs => rw [hR]
          simp
        · show c.skipBlanks.pos + byteLength inner + 2 = _
          rw [byteLength_bracket]
          omega
  · exact ⟨fun d hd => (by cases hd), fun w c' hw => (by cases hw)⟩

/-- The spans `checkBrackets` reports lie inside the word it checks. -/
theorem checkBrackets_within {w : Word} {d : Diagnostic} (hk : c.line = k)
    (hw : w.span.Covers o L w.chars) (h : c.checkBrackets w = .error d) : d.Within k o L := by
  unfold checkBrackets at h
  split at h
  · rename_i hclose
    cases h
    obtain ⟨rest, hrest⟩ := exists_eq_takeWhile_cons hclose
    refine ⟨hk, [']'], ?_, fun t ht => (Option.not_mem_none t ht).elim⟩
    have hsub := hw.sub (x := w.chars.takeWhile (· ≠ ']')) (y := [']']) (z := rest)
      (by rw [List.append_assoc, List.singleton_append]; exact hrest)
    have h1 : byteLength [']'] = 1 := rfl
    rwa [h1] at hsub
  split at h
  · cases h
    refine ⟨hk, w.chars.dropWhile (· ≠ '['), ?_, fun t ht => (Option.not_mem_none t ht).elim⟩
    have hsub := hw.sub (x := w.chars.takeWhile (· ≠ '[')) (y := w.chars.dropWhile (· ≠ '['))
      (z := []) (by rw [List.append_nil, List.takeWhile_append_dropWhile])
    rw [hw.length_eq, byteLength_sub_takeWhile]
    exact hsub
  · cases h

/-- An error a reader fails with at a span of the line carries that span. -/
theorem fail_within {α : Type} {e : AsmError} {span : Span} {d : Diagnostic} {m : List Char}
    (h : (c.fail e span : Except Diagnostic α) = .error d) (hk : c.line = k)
    (hm : span.Covers o L m) (ht : ∀ t ∈ e.text?, String.ofList m = t) : d.Within k o L := by
  cases h
  exact ⟨hk, m, hm, ht⟩

end Cursor

/-! ## Operands and instructions -/

/-- A word that does not denote an operand is named by the error. -/
theorem classify_error_text {w : Word} {e : AsmError} (h : classify w = .error e) :
    e.text? = some w.text := by
  unfold classify at h
  split at h
  · split at h <;> cases h
    rfl
  · split at h
    · cases h
    · split at h <;> cases h
      rfl

theorem classify_label {w : Word} {name : String} (h : classify w = .ok (.label name)) :
    name = w.text := by
  unfold classify at h
  split at h
  · split at h <;> cases h
  · split at h
    · cases h
    · split at h <;> cases h
      rfl

namespace Cursor

variable {c : Cursor}

/-- Reading an operand keeps the cursor within its line; the operand's word covers characters
of the line, and a label it names is that word. -/
theorem Within.operand? (h : c.Within k o L) :
    (∀ d, c.operand? = .error d → d.Within k o L) ∧
      ∀ x c', c.operand? = .ok (some (x, c')) → x.word.span.Covers o L x.word.chars ∧
        c'.Within k o L ∧ ∀ name, x.arg = .label name → name = x.word.text := by
  obtain ⟨hbe, hbo⟩ := h.bracketed?
  have hclass : ∀ w e d, w.span.Covers o L w.chars → classify w = .error e →
      (c.fail e w.span : Except Diagnostic (Option (OperandSyntax × Cursor))) = .error d →
      d.Within k o L := fun w e d hw he hd =>
    fail_within hd h.1 hw fun t ht => by
      rw [classify_error_text he] at ht
      cases ht
      rfl
  refine ⟨fun d hd => ?_, fun x c' hx => ?_⟩
  · unfold Cursor.operand? at hd
    simp only [bind, Except.bind, pure, Except.pure] at hd
    rcases hb : c.bracketed? with e | _ | ⟨w, next⟩ <;> rw [hb] at hd
    · cases hd
      exact hbe _ hb
    · rcases hn : c.nextWord? with _ | ⟨w, next⟩ <;> simp only [hn] at hd
      · cases hd
      have hw := (h.nextWord? hn).1
      rcases hc : c.checkBrackets w with e | ⟨⟩ <;> simp only [hc] at hd
      · cases hd
        exact checkBrackets_within h.1 hw hc
      rcases hcl : classify w with e | arg <;> simp only [hcl] at hd
      · exact hclass w e d hw hcl hd
      · cases hd
    · rcases hcl : classify w with e | arg <;> simp only [hcl] at hd
      · exact hclass w e d (hbo w next hb).1 hcl hd
      · cases hd
  · obtain (⟨h', -⟩ | ⟨x', c'', h', hcl, hread⟩) := operand?_eq_ok_iff.1 hx
    · cases h'
    obtain ⟨rfl, rfl⟩ := Prod.mk.inj (Option.some.inj h')
    have hlabel : ∀ name, x.arg = .label name → name = x.word.text :=
      fun name hn => classify_label (hn ▸ hcl)
    rcases hread with ⟨-, hb⟩ | ⟨-, -, hn, -⟩
    · exact ⟨(hbo _ _ hb).1, (hbo _ _ hb).2, hlabel⟩
    · exact ⟨(h.nextWord? hn).1, (h.nextWord? hn).2, hlabel⟩

/-- What `form` fails with: a missing operand at the mnemonic, or an operand the opcode does
not take, at that operand. -/
theorem form_eq_error {op : Opcode} {span : Span} {o? : Option OperandSyntax} {d : Diagnostic}
    (h : c.form op span o? = .error d) :
    d.line = c.line ∧ ((d.span = span ∧ d.error = .missingOperand op) ∨
      ∃ x ∈ o?, d.span = x.word.span ∧
        (d.error = .unexpectedOperand op ∨ d.error = .invalidOperand op x.word.text)) := by
  unfold form at h
  split at h
  case h_3 =>
    cases h
    exact ⟨rfl, .inl ⟨rfl, rfl⟩⟩
  case h_4 =>
    cases h
    exact ⟨rfl, .inr ⟨_, rfl, rfl, .inl rfl⟩⟩
  case h_5 =>
    split at h
    · cases h
      exact ⟨rfl, .inr ⟨_, rfl, rfl, .inr rfl⟩⟩
    · split at h
      · cases h
      · cases h
        exact ⟨rfl, .inr ⟨_, rfl, rfl, .inr rfl⟩⟩
      · cases h
  case h_6 =>
    split at h
    · split at h
      · cases h
      · cases h
        exact ⟨rfl, .inr ⟨_, rfl, rfl, .inr rfl⟩⟩
    · cases h
      exact ⟨rfl, .inr ⟨_, rfl, rfl, .inr rfl⟩⟩
  all_goals cases h

/-- A jump or call to a label takes the label's name and span from its operand. -/
theorem form_eq_toLabel {op op' : Opcode} {span sp : Span} {o? : Option OperandSyntax}
    {hop : op'.operandClass = .target} {name : String}
    (h : c.form op span o? = .ok (.toLabel op' hop name sp)) :
    ∃ x ∈ o?, x.arg = .label name ∧ sp = x.word.span := by
  unfold form at h
  split at h
  case h_5 =>
    split at h
    · cases h
    · split at h
      · cases h
      · cases h
      · rename_i harg
        cases h
        exact ⟨_, rfl, harg, rfl⟩
  case h_6 =>
    split at h
    · split at h <;> cases h
    · cases h
  all_goals cases h

/-- Reading an instruction from its mnemonic on keeps every span within the line, and a jump
or call to a label takes the label's span from the line. -/
theorem Within.instruction (h : c.Within k o L) {m : Word} (hm : m.span.Covers o L m.chars) :
    (∀ d, c.instruction m = .error d → d.Within k o L) ∧
      ∀ op hop name sp, c.instruction m = .ok (.toLabel op hop name sp) →
        ∃ chars, sp.Covers o L chars ∧ String.ofList chars = name := by
  obtain ⟨hoe, hoo⟩ := h.operand?
  have hread : ∀ read, c.operand? = .ok read →
      (∀ x ∈ read.map (·.1), x.word.span.Covers o L x.word.chars ∧
        ∀ name, x.arg = .label name → name = x.word.text) ∧
      ((read.map (·.2)).getD c).Within k o L := by
    intro read hr
    rcases read with _ | ⟨x, c'⟩
    · exact ⟨fun x hx => (Option.not_mem_none x hx).elim, h⟩
    · obtain ⟨hx, hc', hl⟩ := hoo x c' hr
      refine ⟨fun y hy => ?_, hc'⟩
      cases hy
      exact ⟨hx, hl⟩
  constructor
  · intro d hd
    unfold Cursor.instruction at hd
    simp only [bind, Except.bind, pure, Except.pure] at hd
    rcases hop : Opcode.ofMnemonic? m.text with _ | op <;> simp only [hop] at hd
    · exact fail_within hd h.1 hm fun t ht => by cases ht; rfl
    rcases hr : c.operand? with e | read <;> simp only [hr] at hd
    · cases hd
      exact hoe _ hr
    obtain ⟨hx, hafter⟩ := hread read hr
    rcases hf : c.form op m.span (read.map (·.1)) with e | f <;> simp only [hf] at hd
    · cases hd
      obtain ⟨hl, hkind⟩ := form_eq_error hf
      rcases hkind with ⟨hsp, he⟩ | ⟨x, hxmem, hsp, he⟩
      · refine ⟨hl.trans h.1, m.chars, hsp ▸ hm, fun t ht => ?_⟩
        rw [he] at ht
        cases ht
      · refine ⟨hl.trans h.1, x.word.chars, hsp ▸ (hx x hxmem).1, fun t ht => ?_⟩
        rcases he with he | he <;> rw [he] at ht <;> cases ht
        rfl
    rcases hn : ((read.map (·.2)).getD c).nextWord? with _ | ⟨extra, _⟩ <;> simp only [hn] at hd
    · cases hd
    have hextra := (hafter.nextWord? hn).1
    rcases hb : c.checkBrackets extra with e | ⟨⟩ <;> simp only [hb] at hd
    · cases hd
      exact checkBrackets_within h.1 hextra hb
    · exact fail_within hd h.1 hextra fun t ht => by cases ht; rfl
  · intro op' hop' name sp hi
    unfold Cursor.instruction at hi
    simp only [bind, Except.bind, pure, Except.pure] at hi
    rcases hop : Opcode.ofMnemonic? m.text with _ | op <;> simp only [hop] at hi
    · cases hi
    rcases hr : c.operand? with e | read <;> simp only [hr] at hi
    · cases hi
    obtain ⟨hx, -⟩ := hread read hr
    rcases hf : c.form op m.span (read.map (·.1)) with e | f <;> simp only [hf] at hi
    · cases hi
    rcases hn : ((read.map (·.2)).getD c).nextWord? with _ | ⟨extra, _⟩ <;> simp only [hn] at hi
    · cases hi
      obtain ⟨x, hxmem, harg, rfl⟩ := form_eq_toLabel hf
      obtain ⟨hcov, hl⟩ := hx x hxmem
      exact ⟨x.word.chars, hcov, (hl name harg).symm⟩
    · rcases hb : c.checkBrackets extra with e | ⟨⟩ <;> simp only [hb] at hi <;> cases hi

/-- Reading how a line begins keeps every span within the line: a bad label name is reported
at the name without its `:`, a label is bound with that span, and the mnemonic is the next
word. -/
theorem Within.head (h : c.Within k o L) :
    (∀ d, c.head = .error d → d.Within k o L) ∧
      ∀ hd, c.head = .ok hd →
        (∀ name span, hd.label = some (name, span) →
          ∃ chars, span.Covers o L chars ∧ String.ofList chars = name) ∧
        ∀ w after, hd.mnemonic = some (w, after) → w.span.Covers o L w.chars ∧ after.Within k o L := by
  -- a label's name is the word without its final `:`, which takes one byte
  have hname : ∀ w next, c.nextWord? = some (w, next) → w.chars.getLast? = some ':' →
      Span.Covers o L w.chars.dropLast ⟨w.span.offset, w.span.length - 1⟩ := by
    intro w next hn hl
    have hw := (h.nextWord? hn).1
    have hsplit : w.chars = [] ++ w.chars.dropLast ++ [':'] := by
      rw [List.nil_append, List.dropLast_append_getLast? _ hl]
    have hlen : w.span.length - 1 = byteLength w.chars.dropLast := by
      have hb := congrArg byteLength hsplit
      have h1 : byteLength [':'] = 1 := rfl
      rw [byteLength_append, byteLength_append, h1, byteLength_nil] at hb
      rw [hw.length_eq]
      omega
    have hsub := hw.sub hsplit
    rwa [← hlen, byteLength_nil, Nat.add_zero] at hsub
  unfold Cursor.head
  rcases hn : c.nextWord? with _ | ⟨w, next⟩
  · refine ⟨fun d hd => (by cases hd), fun hd hh => ?_⟩
    cases hh
    exact ⟨fun _ _ h' => (by cases h'), fun _ _ h' => (by cases h')⟩
  obtain ⟨hw, hnext⟩ := h.nextWord? hn
  dsimp only
  split
  · rename_i hl
    have hcov := hname w next hn hl
    split
    · exact ⟨fun d hd => fail_within hd h.1 hcov fun t ht => by cases ht; rfl,
        fun hd hh => by simp [fail] at hh⟩
    · refine ⟨fun d hd => (by cases hd), fun hd hh => ?_⟩
      cases hh
      refine ⟨fun name span hl' => ?_, fun w' after hm => hnext.nextWord? hm⟩
      cases hl'
      exact ⟨_, hcov, rfl⟩
  · refine ⟨fun d hd => (by cases hd), fun hd hh => ?_⟩
    cases hh
    refine ⟨fun _ _ h' => (by cases h'), fun w' after hm => ?_⟩
    cases hm
    exact ⟨hw, hnext⟩

end Cursor

end Within

/-! ## The first pass -/

namespace Survey

/-- What one line adds to the survey: no error and no instruction; one error, from how the
line begins, from a label bound before, or from its instruction; or one instruction. -/
theorem line_adds (s : Survey) (c : Cursor) :
    ((s.line c).errors = s.errors ∧ (s.line c).forms = s.forms) ∨
      (∃ d, (s.line c).errors = s.errors.push d ∧ (s.line c).forms = s.forms ∧
        (c.head = .error d ∨ ∃ hd, c.head = .ok hd ∧
          ((∃ name span j, hd.label = some (name, span) ∧ d = ⟨.duplicateLabel name j, c.line, span⟩) ∨
            ∃ w after, hd.mnemonic = some (w, after) ∧ after.instruction w = .error d))) ∨
      ∃ f hd w after, (s.line c).errors = s.errors ∧ (s.line c).forms = s.forms.push (c.line, f) ∧
        c.head = .ok hd ∧ hd.mnemonic = some (w, after) ∧ after.instruction w = .ok f := by
  unfold line
  rcases hh : c.head with d | ⟨label, mnemonic⟩
  · exact .inr (.inl ⟨d, rfl, rfl, .inl rfl⟩)
  rcases label with _ | ⟨name, span⟩
  · rcases mnemonic with _ | ⟨w, after⟩
    · exact .inl ⟨rfl, rfl⟩
    rcases hi : after.instruction w with d | f
    · refine .inr (.inl ⟨d, ?_, ?_, .inr ⟨_, rfl, .inr ⟨w, after, rfl, hi⟩⟩⟩) <;> simp [hi, reject]
    · refine .inr (.inr ⟨f, _, w, after, ?_, ?_, rfl, rfl, hi⟩) <;> simp [hi]
  rcases hins : s.labels.insert name ⟨s.size.toUInt32, c.line⟩ with first | t
  · refine .inr (.inl ⟨_, ?_, ?_, .inr ⟨_, rfl, .inl ⟨name, span, first.line, rfl, rfl⟩⟩⟩) <;>
      simp [hins, reject]
  rcases mnemonic with _ | ⟨w, after⟩
  · refine .inl ⟨?_, ?_⟩ <;> simp [hins]
  rcases hi : after.instruction w with d | f
  · refine .inr (.inl ⟨d, ?_, ?_, .inr ⟨_, rfl, .inr ⟨w, after, rfl, hi⟩⟩⟩) <;> simp [hins, hi, reject]
  · refine .inr (.inr ⟨f, _, w, after, ?_, ?_, rfl, rfl, hi⟩) <;> simp [hins, hi]

/-- Every error a survey of `p` has gathered points into its own line, and so would the error
of each jump or call to a label it has read, were the label missing. -/
def PointsInto (p : Program) (s : Survey) : Prop :=
  (∀ d ∈ s.errors.toList, d.InLine p) ∧
    ∀ x ∈ s.forms.toList, ∀ op hop name sp, x.2 = .toLabel op hop name sp →
      Diagnostic.InLine p ⟨.unresolvedLabel name, x.1, sp⟩

variable {p : Program} {s : Survey}

theorem pointsInto_empty : Survey.empty.PointsInto p :=
  ⟨fun _ h => (List.not_mem_nil h).elim, fun _ h => (List.not_mem_nil h).elim⟩

/-- A line of `p` read from its start keeps every error and every jump to a label pointing
into its line. -/
theorem PointsInto.line (hs : s.PointsInto p) {k o : Nat} {l : String}
    (hl : p.lines[k]? = some l) (ho : p.offsets[k]? = some o) :
    (s.line (Cursor.start k o l)).PointsInto p := by
  have hc := Cursor.Within.start k o l
  have hin : ∀ d : Diagnostic, d.Within k o l.toList → d.InLine p := by
    rintro d ⟨hk, hrest⟩
    subst hk
    exact ⟨l, o, hl, ho, rfl, hrest⟩
  obtain ⟨hhe, hho⟩ := hc.head
  rcases line_adds s (Cursor.start k o l) with ⟨he, hf⟩ | ⟨d, he, hf, hd⟩ |
      ⟨f, hd, w, after, he, hf, hh, hm, hi⟩
  · rw [PointsInto, he, hf]
    exact hs
  · have hdw : d.Within k o l.toList := by
      rcases hd with hh | ⟨hd', hh, ⟨name, span, j, hlab, rfl⟩ | ⟨w, after, hm, hi⟩⟩
      · exact hhe d hh
      · obtain ⟨chars, hcov, hname⟩ := (hho hd' hh).1 name span hlab
        exact ⟨rfl, chars, hcov, fun t ht => by cases ht; exact hname⟩
      · obtain ⟨hw, hafter⟩ := (hho hd' hh).2 w after hm
        exact (hafter.instruction hw).1 d hi
    refine ⟨?_, by rw [hf]; exact hs.2⟩
    rw [he, Array.toList_push]
    intro d' hd'
    rcases List.mem_append.1 hd' with hd' | hd'
    · exact hs.1 d' hd'
    · rw [List.mem_singleton.1 hd']
      exact hin d hdw
  · refine ⟨by rw [he]; exact hs.1, ?_⟩
    rw [hf, Array.toList_push]
    intro x hx op hop name sp hx2
    rcases List.mem_append.1 hx with hx | hx
    · exact hs.2 x hx op hop name sp hx2
    · rw [List.mem_singleton.1 hx] at hx2 ⊢
      obtain ⟨hw, hafter⟩ := (hho hd hh).2 w after hm
      obtain ⟨chars, hcov, hname⟩ := (hafter.instruction hw).2 op hop name sp (hx2 ▸ hi)
      exact hin _ ⟨rfl, chars, hcov, fun t ht => by cases ht; exact hname⟩

/-- The first pass over lines of `p`, each read from its start, keeps every error and every
jump to a label pointing into its line. -/
theorem PointsInto.foldl {cs : List Cursor} (hs : s.PointsInto p)
    (hcs : ∀ c ∈ cs, ∃ k l o, p.lines[k]? = some l ∧ p.offsets[k]? = some o ∧
      c = Cursor.start k o l) :
    (cs.foldl Survey.line s).PointsInto p := by
  induction cs generalizing s with
  | nil => exact hs
  | cons c cs ih =>
    obtain ⟨k, l, o, hl, ho, rfl⟩ := hcs c List.mem_cons_self
    exact ih (hs.line hl ho) fun c' hc' => hcs c' (List.mem_cons_of_mem _ hc')

end Survey

namespace Program

/-- The assembler reads each line of a program from its start, at its offset. -/
theorem mem_cursors {p : Program} {c : Cursor} (hc : c ∈ p.cursors) :
    ∃ k l o, p.lines[k]? = some l ∧ p.offsets[k]? = some o ∧ c = Cursor.start k o l := by
  rw [cursors_eq] at hc
  obtain ⟨j, hj, rfl⟩ := List.mem_map.1 hc
  have hj' := List.mem_range.1 hj
  have hlen : p.offsets.length = p.lines.length := length_offsetsFrom 0 p.lines
  refine ⟨j, _, _, ?_, ?_, rfl⟩
  · simp [List.getD_eq_getElem?_getD, hj']
  · simp [List.getD_eq_getElem?_getD, hlen, hj']

theorem survey_pointsInto (p : Program) : p.survey.PointsInto p := by
  rw [survey_eq]
  exact Survey.pointsInto_empty.foldl fun c hc => mem_cursors hc

end Program

/-! ## The second pass -/

/-- The second pass reports each missing label at the jump or call that names it. -/
theorem resolveAll_error_mem {labels : LabelTable} {forms : List (Nat × Form)}
    {ds : List Diagnostic} (h : resolveAll labels forms = .error ds) {d : Diagnostic}
    (hd : d ∈ ds) :
    ∃ x ∈ forms, ∃ op hop name, x.2 = .toLabel op hop name d.span ∧
      d = ⟨.unresolvedLabel name, x.1, d.span⟩ := by
  unfold resolveAll at h
  dsimp only at h
  split at h
  · cases h
  cases h
  obtain ⟨r, hr, hrd⟩ := List.mem_filterMap.1 hd
  obtain ⟨⟨line, f⟩, hx, rfl⟩ := List.mem_map.1 hr
  cases f with
  | fixed i => simp [Form.resolve] at hrd
  | toLabel op hop name span =>
    rcases hg : labels.get? name with _ | ld <;> simp only [Form.resolve, hg] at hrd
    · cases hrd
      exact ⟨_, hx, op, hop, name, rfl, rfl⟩
    · cases hrd

namespace Program

variable {p : Program}

/-- Every error of a program that does not assemble points into its own line. -/
theorem assemble_error_inLine {ce : CompileError} (h : p.assemble = .error ce) :
    ∀ d ∈ ce.diagnostics, d.InLine p := by
  have hs := p.survey_pointsInto
  by_cases hclean : p.survey.errors.toList = []
  · obtain ⟨ds⟩ := ce
    have hr := (assemble_eq_error_of_clean hclean).1 h
    intro d hd
    obtain ⟨x, hx, op, hop, name, hx2, hdeq⟩ := resolveAll_error_mem hr hd
    rw [hdeq]
    exact hs.2 x hx op hop name d.span hx2
  · rw [assemble_of_survey_errors hclean] at h
    cases h
    exact hs.1

end Program

/-! ## Spans in the program text -/

theorem byteLength_eq_utf8ByteSize (cs : List Char) :
    byteLength cs = (String.ofList cs).utf8ByteSize := by
  rw [String.utf8ByteSize_ofList]
  induction cs with
  | nil => rfl
  | cons c cs ih => rw [byteLength_cons, String.utf8Len_cons, ih, Nat.add_comm]

theorem byteLength_toList (s : String) : byteLength s.toList = s.utf8ByteSize := by
  rw [byteLength_eq_utf8ByteSize, String.ofList_toList]

/-- A span covering characters of a line of `p` cuts them out of the program text. -/
theorem Span.Covers.slice {p : Program} {k o : Nat} {l : String} {m : List Char} {sp : Span}
    (hl : p.lines[k]? = some l) (ho : p.offsets[k]? = some o) (h : sp.Covers o l.toList m) :
    ∃ a b, p.text = a ++ String.ofList m ++ b ∧ a.utf8ByteSize = sp.offset ∧
      (String.ofList m).utf8ByteSize = sp.length := by
  obtain ⟨o', a, b, ho', htext, ha, -⟩ := p.text_eq_append_line k l hl
  rw [ho, Option.some.injEq] at ho'
  subst ho'
  obtain ⟨pre, post, hL, -, rfl⟩ := h
  refine ⟨a ++ String.ofList pre, String.ofList post ++ b, ?_, ?_, ?_⟩
  · rw [htext, ← String.ofList_toList (s := l), hL]
    simp only [String.ofList_append, String.append_assoc]
  · rw [String.utf8ByteSize_append, ha, byteLength_eq_utf8ByteSize]
  · exact (byteLength_eq_utf8ByteSize m).symm

/-- A position is a character boundary of a text that splits there. -/
theorem isValid_of_split {s a b : String} {n : Nat} (h : s = a ++ b) (ha : a.utf8ByteSize = n) :
    String.Pos.Raw.IsValid s ⟨n⟩ :=
  String.Pos.Raw.isValid_iff_exists_append.2 ⟨a, b, h, by rw [← ha]; rfl⟩

/-- Where a diagnostic of `p` points, in its line `l`, which starts at offset `o` of the
program text: inside the line, before the line's comment, from one character boundary of the
text to another, and at the text the error names, if it names one. -/
structure Diagnostic.PointsIntoLine (p : Program) (d : Diagnostic) (l : String) (o : Nat) :
    Prop where
  line : p.lines[d.line]? = some l
  offset : p.offsets[d.line]? = some o
  start_le : o ≤ d.span.offset
  end_le : d.span.offset + d.span.length ≤ o + l.utf8ByteSize
  before_comment : ∃ pre m post, l.toList = pre ++ m ++ post ∧ ';' ∉ pre ++ m ∧
    d.span = ⟨o + byteLength pre, byteLength m⟩
  start_boundary : String.Pos.Raw.IsValid p.text ⟨d.span.offset⟩
  end_boundary : String.Pos.Raw.IsValid p.text ⟨d.span.offset + d.span.length⟩
  names : ∃ a t b, p.text = a ++ t ++ b ∧ a.utf8ByteSize = d.span.offset ∧
    t.utf8ByteSize = d.span.length ∧ ∀ name ∈ d.error.text?, t = name

/-- A diagnostic that points into its line points there in the program text too. -/
theorem Diagnostic.InLine.pointsIntoLine {p : Program} {d : Diagnostic} (h : d.InLine p) :
    ∃ l o, d.PointsIntoLine p l o := by
  obtain ⟨l, o, hl, ho, -, m, hcov, htext⟩ := h
  obtain ⟨a, b, hsplit, ha, hm⟩ := hcov.slice hl ho
  obtain ⟨pre, post, hL, hsemi, hspan⟩ := hcov
  have hsize : l.utf8ByteSize = byteLength pre + byteLength m + byteLength post := by
    rw [← byteLength_toList, hL, byteLength_append, byteLength_append]
  refine ⟨l, o, ⟨hl, ho, ?_, ?_, ⟨pre, m, post, hL, hsemi, hspan⟩, isValid_of_split
    (by rw [hsplit, String.append_assoc]) ha, isValid_of_split hsplit ?_,
    ⟨a, String.ofList m, b, hsplit, ha, hm, htext⟩⟩⟩
  · rw [hspan]
    exact Nat.le_add_right o _
  · rw [hspan, hsize]
    dsimp only
    omega
  · rw [String.utf8ByteSize_append, ha, hm]

/-- Every error of a program that does not assemble points into its own line: inside the
line, at characters before any `;` of it, so at no part of a comment, from one character
boundary of the program text to another, and at the text the error names, if it names one. -/
theorem assemble_errors_point_into_lines {p : Program} {ce : CompileError}
    (h : p.assemble = .error ce) : ∀ d ∈ ce.diagnostics, ∃ l o, d.PointsIntoLine p l o :=
  fun d hd => (Program.assemble_error_inLine h d hd).pointsIntoLine

/-- A line that starts with an ideographic space, three bytes long, and ends in a comment: the
unknown mnemonic is reported at its own four bytes. -/
theorem unknown_mnemonic_points_into_line :
    (Program.mk ["hlt", "\u3000frob 1 ; x"]).assemble =
        .error ⟨[⟨.unknownMnemonic "frob", 1, ⟨7, 4⟩⟩]⟩ ∧
      ∀ d ∈ [(⟨.unknownMnemonic "frob", 1, ⟨7, 4⟩⟩ : Diagnostic)],
        ∃ l o, d.PointsIntoLine ⟨["hlt", "\u3000frob 1 ; x"]⟩ l o :=
  ⟨rfl, assemble_errors_point_into_lines rfl⟩

end StackMachine
