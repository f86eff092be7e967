import Mathlib
import StackMachine.Proofs.SourceText
import StackMachine.Proofs.Utf8Decoding
/-!
# Reading a program's lines

`Program.read` cuts the bytes after every newline byte, decodes each piece on its own and strips
the piece's line break. A newline byte never stands inside the encoding of another character, so
cutting there splits no character: reading succeeds exactly on valid UTF-8, which is exactly
when every piece is valid on its own, and a failure carries the error of the first piece that is
not. The lines read from the encoding of a text are the text's pieces between newlines, without
the empty piece after a final newline, each without one carriage return at its end; that holds
of the last piece too, whether or not a newline follows it. Every line of every program stands
in the program text at its offset.

`read_splits_lines` puts these together.
-/

namespace StackMachine

/-! ## Failing in a list of steps -/

section MapM

variable {α β ε : Type} {f : α → Except ε β}

theorem forall_ok_of_mapM {l : List α} {r : List β} (h : l.mapM f = .ok r) :
    ∀ x ∈ l, ∃ v, f x = .ok v := by
  induction l generalizing r with
  | nil => exact fun _ hx => (List.not_mem_nil hx).elim
  | cons x xs ih =>
    simp only [List.mapM_cons, bind, Except.bind, pure, Except.pure] at h
    rcases hx : f x with e | v <;> rw [hx] at h
    · cases h
    rcases hxs : xs.mapM f with e | vs <;> rw [hxs] at h
    · cases h
    intro y hy
    rcases List.mem_cons.1 hy with rfl | hy
    · exact ⟨v, hx⟩
    · exact ih hxs y hy

theorem mapM_cons_of_ok {x : α} {xs : List α} {v : β} (hx : f x = .ok v) :
    (x :: xs).mapM f = (xs.mapM f).map (v :: ·) := by
  rw [List.mapM_cons, hx]
  rcases xs.mapM f with e | vs <;> rfl

theorem mapM_cons_of_error {x : α} {xs : List α} {e : ε} (hx : f x = .error e) :
    (x :: xs).mapM f = .error e := by
  rw [List.mapM_cons, hx]
  rfl

/-- Steps taken one after another fail with the error of the first step that fails. -/
theorem mapM_eq_error_iff {l : List α} {e : ε} :
    l.mapM f = .error e ↔
      ∃ pre x post, l = pre ++ x :: post ∧ (∀ y ∈ pre, ∃ v, f y = .ok v) ∧ f x = .error e := by
  induction l with
  | nil =>
    constructor
    · intro h
      cases h
    · rintro ⟨pre, x, post, h, -⟩
      simp at h
  | cons x xs ih =>
    rcases hx : f x with e' | v
    · rw [mapM_cons_of_error hx]
      constructor
      · intro h
        cases h
        exact ⟨[], x, xs, rfl, by simp, hx⟩
      · rintro ⟨_ | ⟨z, pre⟩, y, post, hl, hpre, hy⟩
        · obtain ⟨rfl, -⟩ := List.cons.inj hl
          rw [hx] at hy
          cases hy
          rfl
        · obtain ⟨rfl, -⟩ := List.cons.inj hl
          obtain ⟨w, hw⟩ := hpre _ List.mem_cons_self
          rw [hx] at hw
          cases hw
    · have hmap : ∀ r : Except ε (List β), r.map (v :: ·) = .error e ↔ r = .error e := by
        intro r
        cases r <;> simp [Except.map]
      rw [mapM_cons_of_ok hx, hmap, ih]
      constructor
      · rintro ⟨pre, y, post, hl, hpre, hy⟩
        refine ⟨x :: pre, y, post, by rw [hl]; rfl, fun z hz => ?_, hy⟩
        rcases List.mem_cons.1 hz with rfl | hz
        · exact ⟨v, hx⟩
        · exact hpre z hz
      · rintro ⟨_ | ⟨z, pre⟩, y, post, hl, hpre, hy⟩
        · obtain ⟨rfl, -⟩ := List.cons.inj hl
          rw [hx] at hy
          cases hy
        · obtain ⟨rfl, hrest⟩ := List.cons.inj hl
          exact ⟨pre, y, post, hrest, fun w hw => hpre w (List.mem_cons_of_mem _ hw), hy⟩

end MapM

namespace Text

/-! ## Lines of a text -/

/-- The pieces of a text between its newlines, without the empty piece after a final newline
(or the one empty piece of the empty text). -/
def lineSegments (cs : List Char) : List (List Char) :=
  let parts := cs.splitOn '\n'
  if parts.getLast? = some [] then parts.dropLast else parts

/-- A piece of text without one carriage return at its end. -/
def dropFinalCR (cs : List Char) : List Char :=
  if cs.getLast? = some '\r' then cs.dropLast else cs

theorem lineSegments_of_not_mem {cs : List Char} (h : '\n' ∉ cs) :
    lineSegments cs = if cs = [] then [] else [cs] := by
  unfold lineSegments
  rw [List.splitOn_eq_singleton h]
  by_cases hcs : cs = [] <;> simp [hcs]

theorem lineSegments_append_newline {l : List Char} (h : '\n' ∉ l) (rest : List Char) :
    lineSegments (l ++ '\n' :: rest) = l :: lineSegments rest := by
  unfold lineSegments
  dsimp only
  rw [List.splitOn_append_cons_self_of_not_mem h]
  -- the pieces of the rest are never none, so the last piece is theirs
  obtain ⟨x, xs, hx⟩ := List.exists_cons_of_ne_nil (List.splitOn_ne_nil '\n' rest)
  rw [hx, List.getLast?_cons_cons, List.dropLast_cons_cons]
  split_ifs <;> rfl

/-- A text with a newline is its first line, the newline, and the rest. -/
theorem exists_first_newline {cs : List Char} (h : '\n' ∈ cs) :
    ∃ l rest, cs = l ++ '\n' :: rest ∧ '\n' ∉ l := by
  induction cs with
  | nil => cases h
  | cons c cs ih =>
    by_cases hc : c = '\n'
    · exact ⟨[], cs, by rw [hc]; rfl, List.not_mem_nil⟩
    · have hcs : '\n' ∈ cs := by
        rcases List.mem_cons.1 h with h | h
        · exact absurd h.symm hc
        · exact h
      obtain ⟨l, rest, rfl, hl⟩ := ih hcs
      refine ⟨c :: l, rest, rfl, ?_⟩
      rintro (_ | ⟨_, h'⟩)
      · exact hc rfl
      · exact hl h'

/-! ## Newline bytes -/

/-- A newline byte stands only in the encoding of a newline. -/
theorem newline_not_mem_utf8EncodeChar {c : Char} (hc : c ≠ '\n') :
    (10 : UInt8) ∉ String.utf8EncodeChar c := by
  have hv : c.toNat ≠ 10 := fun h => hc (Char.toNat_inj.1 h)
  have hval : c.val.toNat = c.toNat := rfl
  simp only [String.utf8EncodeChar]
  split_ifs <;> simp [← UInt8.toNat_inj, UInt8.toNat_ofNat'] <;> omega

theorem newline_not_mem_flatMap {l : List Char} (h : '\n' ∉ l) :
    ∀ b ∈ l.flatMap String.utf8EncodeChar, b ≠ 10 := by
  intro b hb h10
  obtain ⟨c, hc, hbc⟩ := List.mem_flatMap.1 hb
  exact newline_not_mem_utf8EncodeChar (fun hn => h (hn ▸ hc)) (h10 ▸ hbc)

theorem flatMap_eq_nil_iff {l : List Char} : l.flatMap String.utf8EncodeChar = [] ↔ l = [] := by
  constructor
  · intro h
    cases l with
    | nil => rfl
    | cons c cs =>
      have := congrArg List.length h
      simp only [List.flatMap_cons, List.length_append, String.length_utf8EncodeChar,
        List.length_nil] at this
      have := c.utf8Size_pos
      omega
  · rintro rfl
    rfl

end Text

open Text

namespace Program

/-! ## The pieces of the bytes -/

/-- The pieces put back together are the bytes; none is empty; a newline byte ends a piece
and stands nowhere else in it; and every piece but the last ends with one. -/
theorem chunks_spec (acc s : List UInt8) (hacc : ∀ b ∈ acc, b ≠ 10) :
    (chunks acc s).flatten = acc.reverse ++ s ∧
      (∀ x ∈ chunks acc s, x ≠ [] ∧ ∀ b ∈ x.dropLast, b ≠ 10) ∧
      ∀ x ∈ (chunks acc s).dropLast, x.getLast? = some 10 := by
  induction s generalizing acc with
  | nil =>
    by_cases he : acc = []
    · subst he
      simp [chunks]
    · have hne : acc.isEmpty = false := by simpa using he
      refine ⟨by simp [chunks, hne], ?_, by simp [chunks, hne]⟩
      simp only [chunks, hne, Bool.false_eq_true, if_false, List.mem_singleton]
      rintro x rfl
      refine ⟨by simpa using he, fun b hb => hacc b (List.mem_reverse.1 (List.mem_of_mem_dropLast hb))⟩
  | cons b bs ih =>
    by_cases hb : b = 10
    · subst hb
      obtain ⟨hflat, hmem, hlast⟩ := ih [] fun _ h => (List.not_mem_nil h).elim
      have hpiece : (10 :: acc).reverse = acc.reverse ++ [10] := by simp
      simp only [chunks, if_true, hpiece]
      refine ⟨by simp [hflat], fun x hx => ?_, fun x hx => ?_⟩
      · rcases List.mem_cons.1 hx with rfl | hx
        · refine ⟨by simp, fun b hb => ?_⟩
          rw [List.dropLast_concat] at hb
          exact hacc b (List.mem_reverse.1 hb)
        · exact hmem x hx
      · rcases hrest : chunks [] bs with _ | ⟨y, ys⟩
        · simp [hrest] at hx
        · rw [hrest, List.dropLast_cons_cons] at hx
          rcases List.mem_cons.1 hx with rfl | hx
          · simp
          · exact hlast x (by rw [hrest]; exact hx)
    · have hacc' : ∀ c ∈ b :: acc, c ≠ 10 := by
        intro c hc
        rcases List.mem_cons.1 hc with rfl | hc
        · exact hb
        · exact hacc c hc
      simp only [chunks, hb, if_false]
      obtain ⟨hflat, hmem, hlast⟩ := ih (b :: acc) hacc'
      exact ⟨by simp [hflat], hmem, hlast⟩

theorem chunks_flatMap_of_not_mem {l : List Char} (h : '\n' ∉ l) :
    chunks [] (l.flatMap String.utf8EncodeChar) =
      if l = [] then [] else [l.flatMap String.utf8EncodeChar] := by
  rw [← List.append_nil (l.flatMap String.utf8EncodeChar), chunks_append (newline_not_mem_flatMap h)]
  by_cases hl : l = []
  · subst hl
    rfl
  · have hne : (l.flatMap String.utf8EncodeChar).reverse.isEmpty = false := by
      rw [List.isEmpty_reverse, List.isEmpty_eq_false_iff]
      exact mt flatMap_eq_nil_iff.1 hl
    simp only [List.append_nil, chunks, hne, Bool.false_eq_true, if_false, hl, List.reverse_reverse]

theorem chunks_flatMap_newline {l : List Char} (h : '\n' ∉ l) (rest : List UInt8) :
    chunks [] (l.flatMap String.utf8EncodeChar ++ 10 :: rest) =
      (l.flatMap String.utf8EncodeChar ++ [10]) :: chunks [] rest := by
  rw [chunks_append (newline_not_mem_flatMap h), chunks, if_pos rfl]
  simp

/-! ## One piece -/

theorem stripBreak_append_newline (l : List Char) : stripBreak (l ++ ['\n']) = dropFinalCR l := by
  simp [stripBreak, dropFinalCR]

theorem stripBreak_of_not_mem {l : List Char} (h : '\n' ∉ l) : stripBreak l = dropFinalCR l := by
  have hlast : l.getLast? ≠ some '\n' := fun hl => h (List.mem_of_getLast? hl)
  simp [stripBreak, dropFinalCR, hlast]

theorem readLine_flatMap {l : List Char} (h : '\n' ∉ l) :
    readLine (l.flatMap String.utf8EncodeChar) = .ok (String.ofList (dropFinalCR l)) := by
  have hdec : decode (l.flatMap String.utf8EncodeChar) = .ok l := decode_eq_ok_iff.2 rfl
  rw [readLine, hdec]
  dsimp only
  rw [stripBreak_of_not_mem h]

theorem readLine_flatMap_newline (l : List Char) :
    readLine (l.flatMap String.utf8EncodeChar ++ [10]) = .ok (String.ofList (dropFinalCR l)) := by
  have hbytes : l.flatMap String.utf8EncodeChar ++ [10] = (l ++ ['\n']).flatMap String.utf8EncodeChar := by
    simp
    rfl
  have hdec : decode ((l ++ ['\n']).flatMap String.utf8EncodeChar) = .ok (l ++ ['\n']) :=
    decode_eq_ok_iff.2 rfl
  rw [hbytes, readLine, hdec]
  dsimp only
  rw [stripBreak_append_newline]

theorem readLine_isOk_iff (chunk : List UInt8) :
    (∃ v, readLine chunk = .ok v) ↔ chunk.toByteArray.IsValidUTF8 := by
  rw [← decode_isOk_iff]
  unfold readLine
  constructor
  · rintro ⟨v, hv⟩
    split at hv
    · exact ⟨_, by assumption⟩
    · cases hv
  · rintro ⟨cs, hcs⟩
    rw [hcs]
    exact ⟨_, rfl⟩

theorem readLine_eq_error_iff {chunk : List UInt8} {e : SourceError} :
    readLine chunk = .error e ↔ ∃ u, decode chunk = .error u ∧ e = .notUtf8 u := by
  unfold readLine
  split <;> rename_i h
  · simp [h]
  · rw [h]
    constructor
    · intro he
      cases he
      exact ⟨_, rfl, rfl⟩
    · rintro ⟨u, hu, rfl⟩
      cases hu
      rfl

/-! ## The whole program -/

/-- The lines read from the encoding of a text: its pieces between newlines, each without one
carriage return at its end. -/
theorem lines_flatMap (cs : List Char) :
    (chunks [] (cs.flatMap String.utf8EncodeChar)).mapM readLine =
      .ok ((lineSegments cs).map fun l => String.ofList (dropFinalCR l)) := by
  by_cases h : '\n' ∈ cs
  · obtain ⟨l, rest, hcs, hl⟩ := exists_first_newline h
    have ih := lines_flatMap rest
    have hbytes : cs.flatMap String.utf8EncodeChar =
        l.flatMap String.utf8EncodeChar ++ 10 :: rest.flatMap String.utf8EncodeChar := by
      rw [hcs, List.flatMap_append, List.flatMap_cons]
      rfl
    rw [hbytes, chunks_flatMap_newline hl, List.mapM_cons, readLine_flatMap_newline, ih, hcs,
      lineSegments_append_newline hl]
    rfl
  · rw [chunks_flatMap_of_not_mem h, lineSegments_of_not_mem h]
    by_cases hcs : cs = []
    · simp [hcs]
      rfl
    · simp only [hcs, if_false, List.mapM_cons, List.mapM_nil, readLine_flatMap h, List.map_cons,
        List.map_nil]
      rfl
termination_by cs.length
decreasing_by
  rw [hcs]
  simp only [List.length_append, List.length_cons]
  omega

theorem read_flatMap (cs : List Char) :
    read (cs.flatMap String.utf8EncodeChar) =
      .ok ⟨(lineSegments cs).map fun l => String.ofList (dropFinalCR l)⟩ := by
  rw [read, lines_flatMap]
  rfl

/-- Pieces that are each encodings put back together are an encoding. -/
theorem valid_flatten {ls : List (List UInt8)} (h : ∀ x ∈ ls, x.toByteArray.IsValidUTF8) :
    ls.flatten.toByteArray.IsValidUTF8 := by
  rw [isValidUTF8_toByteArray_iff]
  induction ls with
  | nil => exact ⟨[], rfl⟩
  | cons x xs ih =>
    obtain ⟨cs, hcs⟩ := (isValidUTF8_toByteArray_iff x).1 (h x List.mem_cons_self)
    obtain ⟨ds, hds⟩ := ih fun y hy => h y (List.mem_cons_of_mem x hy)
    exact ⟨cs ++ ds, by rw [List.flatten_cons, hcs, hds, List.flatMap_append]⟩

theorem valid_of_chunks {s : List UInt8} (h : ∀ x ∈ chunks [] s, x.toByteArray.IsValidUTF8) :
    s.toByteArray.IsValidUTF8 := by
  have hflat := (chunks_spec [] s fun _ h => (List.not_mem_nil h).elim).1
  simp only [List.reverse_nil, List.nil_append] at hflat
  rw [← hflat]
  exact valid_flatten h

theorem read_isOk_iff (s : List UInt8) : (∃ p, read s = .ok p) ↔ s.toByteArray.IsValidUTF8 := by
  constructor
  · rintro ⟨p, hp⟩
    refine valid_of_chunks fun x hx => ?_
    rcases hm : (chunks [] s).mapM readLine with e | r
    · rw [read, hm] at hp
      cases hp
    exact (readLine_isOk_iff x).1 (forall_ok_of_mapM hm x hx)
  · intro h
    obtain ⟨cs, rfl⟩ := (isValidUTF8_toByteArray_iff s).1 h
    exact ⟨_, read_flatMap cs⟩

theorem chunks_valid_iff (s : List UInt8) :
    (∀ x ∈ chunks [] s, x.toByteArray.IsValidUTF8) ↔ s.toByteArray.IsValidUTF8 := by
  refine ⟨valid_of_chunks, fun h x hx => ?_⟩
  obtain ⟨p, hp⟩ := (read_isOk_iff s).2 h
  rcases hm : (chunks [] s).mapM readLine with e | r
  · rw [read, hm] at hp
    cases hp
  exact (readLine_isOk_iff x).1 (forall_ok_of_mapM hm x hx)

theorem read_eq_error_iff {s : List UInt8} {e : SourceError} :
    read s = .error e ↔ ∃ pre x post, chunks [] s = pre ++ x :: post ∧
      (∀ y ∈ pre, y.toByteArray.IsValidUTF8) ∧ ∃ u, decode x = .error u ∧ e = .notUtf8 u := by
  have hread : read s = .error e ↔ (chunks [] s).mapM readLine = .error e := by
    rw [read]
    rcases (chunks [] s).mapM readLine with e' | r
    · simp [Except.map]
    · simp [Except.map]
  rw [hread, mapM_eq_error_iff]
  simp only [readLine_isOk_iff, readLine_eq_error_iff]

/-! ## Lines in the program text -/

/-- Every line stands in the text at its offset, after whatever text comes before. -/
theorem offsetsFrom_slices (pre : String) (ls : List String) (i : Nat) (l : String)
    (hl : ls[i]? = some l) :
    ∃ a b, pre ++ "\n".intercalate ls = a ++ l ++ b ∧
      (offsetsFrom pre.utf8ByteSize ls)[i]? = some a.utf8ByteSize := by
  induction ls generalizing pre i with
  | nil => simp at hl
  | cons m rest ih =>
    cases i with
    | zero =>
      simp only [List.getElem?_cons_zero, Option.some.injEq] at hl
      subst hl
      rcases rest with _ | ⟨m', rest⟩
      · exact ⟨pre, "", by simp, rfl⟩
      · exact ⟨pre, "\n" ++ "\n".intercalate (m' :: rest),
          by rw [String.intercalate_cons_cons]; simp [String.append_assoc], rfl⟩
    | succ i =>
      simp only [List.getElem?_cons_succ] at hl
      rcases rest with _ | ⟨m', rest⟩
      · simp at hl
      obtain ⟨a, b, htext, hoff⟩ := ih (pre ++ m ++ "\n") i hl
      refine ⟨a, b, ?_, ?_⟩
      · rw [String.intercalate_cons_cons, ← htext]
        simp [String.append_assoc]
      · have hsize : (pre ++ m ++ "\n").utf8ByteSize = pre.utf8ByteSize + m.utf8ByteSize + 1 := by
          rw [String.utf8ByteSize_append, String.utf8ByteSize_append]
          rfl
        rw [offsetsFrom, List.getElem?_cons_succ, ← hsize, hoff]

/-- Line `i` stands in the program text from its offset on. -/
theorem text_eq_append_line (p : Program) (i : Nat) (l : String) (hl : p.lines[i]? = some l) :
    ∃ o a b, p.offsets[i]? = some o ∧ p.text = a ++ l ++ b ∧ a.utf8ByteSize = o ∧
      o + l.utf8ByteSize ≤ p.text.utf8ByteSize := by
  obtain ⟨a, b, htext, hoff⟩ := offsetsFrom_slices "" p.lines i l hl
  simp only [String.empty_append] at htext
  refine ⟨a.utf8ByteSize, a, b, hoff, htext, rfl, ?_⟩
  rw [text, htext]
  simp [String.utf8ByteSize_append]

/-- Reading splits the bytes exactly at their newlines. The pieces, each ended by its newline
but the last, put back together are the bytes; reading succeeds exactly on valid UTF-8, which is
exactly when every piece is valid on its own, and otherwise fails with the error of the first
invalid piece. The lines read from the encoding of a text are its pieces between newlines, with
no empty piece after a final newline, each without one carriage return at its end, whether a
newline follows it or not. Every line stands in the program text at its offset. -/
theorem read_splits_lines (s : List UInt8) :
    ((chunks [] s).flatten = s ∧
      (∀ x ∈ chunks [] s, x ≠ [] ∧ ∀ b ∈ x.dropLast, b ≠ 10) ∧
      ∀ x ∈ (chunks [] s).dropLast, x.getLast? = some 10) ∧
    ((∃ p, read s = .ok p) ↔ s.toByteArray.IsValidUTF8) ∧
    ((∀ x ∈ chunks [] s, x.toByteArray.IsValidUTF8) ↔ s.toByteArray.IsValidUTF8) ∧
    (∀ e, read s = .error e ↔ ∃ pre x post, chunks [] s = pre ++ x :: post ∧
      (∀ y ∈ pre, y.toByteArray.IsValidUTF8) ∧ ∃ u, decode x = .error u ∧ e = .notUtf8 u) ∧
    (∀ cs : List Char, s = cs.flatMap String.utf8EncodeChar →
      read s = .ok ⟨(lineSegments cs).map fun l => String.ofList (dropFinalCR l)⟩) ∧
    ∀ p, read s = .ok p → ∀ (i : Nat) (l : String), p.lines[i]? = some l →
      ∃ o a b, p.offsets[i]? = some o ∧ p.text = a ++ l ++ b ∧ a.utf8ByteSize = o ∧
        o + l.utf8ByteSize ≤ p.text.utf8ByteSize := by
  have hsplit := chunks_spec [] s fun _ h => (List.not_mem_nil h).elim
  simp only [List.reverse_nil, List.nil_append] at hsplit
  refine ⟨hsplit, read_isOk_iff s, chunks_valid_iff s, fun _ => read_eq_error_iff, ?_,
    fun p _ => text_eq_append_line p⟩
  rintro cs rfl
  exact read_flatMap cs

/-- `push 1`, a carriage return and a newline, then `hlt` and a carriage return: the lines are
`push 1` and `hlt`, each without its carriage return, and `hlt` stands in the text at its
offset. -/
theorem read_splits_crlf_lines :
    let s : List UInt8 := [112, 117, 115, 104, 32, 49, 13, 10, 104, 108, 116, 13]
    read s = .ok ⟨["push 1", "hlt"]⟩ ∧
      ∃ o a b, (⟨["push 1", "hlt"]⟩ : Program).offsets[1]? = some o ∧
        (⟨["push 1", "hlt"]⟩ : Program).text = a ++ "hlt" ++ b ∧ a.utf8ByteSize = o ∧
        o + "hlt".utf8ByteSize ≤ (⟨["push 1", "hlt"]⟩ : Program).text.utf8ByteSize := by
  intro s
  have h := read_splits_lines s
  have hread : read s = .ok ⟨["push 1", "hlt"]⟩ := by
    rw [h.2.2.2.2.1 ['p', 'u', 's', 'h', ' ', '1', '\r', '\n', 'h', 'l', 't', '\r'] rfl]
    rfl
  exact ⟨hread, h.2.2.2.2.2 _ hread 1 "hlt" rfl⟩

end Program

end StackMachine
