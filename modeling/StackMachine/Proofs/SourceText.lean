import Mathlib
import StackMachine.Source
/-!
# Reading text back

A program given as text reaches the assembler as the text's UTF-8 bytes, cut into lines at
newline bytes and decoded line by line. For text made of ASCII characters other than line
breaks this loses nothing: `Program.read_text` reads lines joined by newlines back as the
same lines.
-/

namespace StackMachine

/-! ## Bytes of a string -/

theorem ByteArray.toList_loop (bs : ByteArray) (i : Nat) (r : List UInt8) :
    ByteArray.toList.loop bs i r = r.reverse ++ bs.data.toList.drop i := by
  fun_induction ByteArray.toList.loop bs i r with
  | case1 i r h ih =>
    rw [ih]
    have hi : i < bs.data.toList.length := by simpa using h
    rw [List.drop_eq_getElem_cons hi]
    simp [ByteArray.get!, h]
  | case2 i r h =>
    rw [List.drop_eq_nil_of_le (by simpa using h)]
    simp

theorem ByteArray.toList_eq_data (bs : ByteArray) : bs.toList = bs.data.toList := by
  rw [ByteArray.toList, ByteArray.toList_loop]
  simp

/-- The UTF-8 bytes of a string are its characters' encodings one after another. -/
theorem toUTF8_toList (s : String) : s.toUTF8.toList = s.toList.flatMap String.utf8EncodeChar := by
  rw [String.toUTF8_eq_toByteArray, ← String.utf8Encode_toList, List.utf8Encode,
    ByteArray.toList_eq_data, List.toList_data_toByteArray]

/-! ## Lines of plain characters -/

/-- A character of a line that reads back as written: ASCII, and no line break. -/
def LineChar (c : Char) : Prop := c.toNat < 128 ∧ c ≠ '\n' ∧ c ≠ '\r'

instance (c : Char) : Decidable (LineChar c) := inferInstanceAs (Decidable (_ ∧ _))

theorem utf8EncodeChar_of_lt {c : Char} (h : c.toNat < 128) :
    String.utf8EncodeChar c = [c.toNat.toUInt8] := by
  simp [String.utf8EncodeChar]
  omega

theorem toNat_toUInt8_of_lt {c : Char} (h : c.toNat < 128) : c.toNat.toUInt8.toNat = c.toNat := by
  simp [Nat.toUInt8]
  omega

namespace Text

theorem decodeFrom_ascii (pos : Nat) (cs : List Char) (h : ∀ c ∈ cs, c.toNat < 128) :
    decodeFrom pos (cs.flatMap String.utf8EncodeChar) = .ok cs := by
  induction cs generalizing pos with
  | nil => simp [decodeFrom]
  | cons c cs ih =>
    have hc := h c List.mem_cons_self
    have hb : c.toNat.toUInt8 < 0x80 := by
      rw [UInt8.lt_iff_toNat_lt, toNat_toUInt8_of_lt hc]
      simpa using hc
    rw [List.flatMap_cons, utf8EncodeChar_of_lt hc, List.singleton_append, decodeFrom]
    simp only [leadOf, hb, if_true, tailMatch, List.drop_zero, List.take_zero]
    rw [ih _ fun d hd => h d (List.mem_cons_of_mem c hd)]
    simp [codePoint, toNat_toUInt8_of_lt hc]
    rfl

end Text

theorem LineChar.ne_newline_byte {c : Char} (h : LineChar c) : c.toNat.toUInt8 ≠ 10 := by
  intro h10
  have hnat := congrArg UInt8.toNat h10
  rw [toNat_toUInt8_of_lt h.1] at hnat
  exact h.2.1 (Char.toNat_inj.1 hnat)

/-- The bytes of a line of `LineChar`s: one per character. -/
theorem lineBytes {l : List Char} (hl : ∀ c ∈ l, LineChar c) :
    l.flatMap String.utf8EncodeChar = l.map fun c => c.toNat.toUInt8 := by
  induction l with
  | nil => rfl
  | cons c l ih =>
    rw [List.flatMap_cons, utf8EncodeChar_of_lt (hl c List.mem_cons_self).1,
      ih fun d hd => hl d (List.mem_cons_of_mem c hd)]
    rfl

namespace Program

theorem chunks_append {acc xs rest : List UInt8} (h : ∀ b ∈ xs, b ≠ 10) :
    chunks acc (xs ++ rest) = chunks (xs.reverse ++ acc) rest := by
  induction xs generalizing acc with
  | nil => rfl
  | cons x xs ih =>
    rw [List.cons_append, chunks, if_neg (h x List.mem_cons_self),
      ih fun b hb => h b (List.mem_cons_of_mem x hb)]
    simp

theorem stripBreak_of_getLast {cs : List Char} (h : ∀ c ∈ cs.getLast?, c ≠ '\n' ∧ c ≠ '\r') :
    stripBreak cs = cs := by
  have hn : cs.getLast? ≠ some '\n' := fun hl => (h _ hl).1 rfl
  have hr : cs.getLast? ≠ some '\r' := fun hl => (h _ hl).2 rfl
  simp [stripBreak, hn, hr]

theorem readLine_of_lineChars {l : List Char} (hl : ∀ c ∈ l, LineChar c) :
    readLine (l.flatMap String.utf8EncodeChar) = .ok (String.ofList l) := by
  rw [readLine, Text.decode, Text.decodeFrom_ascii 0 l fun c hc => (hl c hc).1]
  simp only
  rw [stripBreak_of_getLast fun c hc => (hl c (List.mem_of_getLast? hc)).2]

theorem readLine_of_lineChars_newline {l : List Char} (hl : ∀ c ∈ l, LineChar c) :
    readLine ((l ++ ['\n']).flatMap String.utf8EncodeChar) = .ok (String.ofList l) := by
  have hall : ∀ c ∈ l ++ ['\n'], c.toNat < 128 := by
    intro c hc
    rcases List.mem_append.1 hc with h | h
    · exact (hl c h).1
    · rw [List.mem_singleton.1 h]
      decide
  rw [readLine, Text.decode, Text.decodeFrom_ascii 0 _ hall]
  simp only
  rw [stripBreak]
  simp only [List.getLast?_concat, if_true, List.dropLast_concat]
  rw [if_neg fun h => (hl _ (List.mem_of_getLast? h)).2.2 rfl]

/-- Lines of `LineChar`s, none empty, joined by newlines, read back as those lines. -/
theorem read_intercalate {ls : List (List Char)} (hne : ∀ l ∈ ls, l ≠ [])
    (hl : ∀ l ∈ ls, ∀ c ∈ l, LineChar c) :
    read ((List.intercalate ['\n'] ls).flatMap String.utf8EncodeChar) = .ok ⟨ls.map String.ofList⟩ := by
  suffices h : (chunks [] ((List.intercalate ['\n'] ls).flatMap String.utf8EncodeChar)).mapM readLine =
      .ok (ls.map String.ofList) by
    rw [read, h]
    rfl
  -- one piece per line: the line and its newline, and the last line alone
  induction ls with
  | nil => rfl
  | cons l rest ih =>
    have hlc := hl l List.mem_cons_self
    have hnl : ∀ b ∈ l.flatMap String.utf8EncodeChar, b ≠ 10 := by
      rw [lineBytes hlc]
      intro b hb
      obtain ⟨c, hc, rfl⟩ := List.mem_map.1 hb
      exact (hlc c hc).ne_newline_byte
    cases rest with
    | nil =>
      rw [List.intercalate_singleton, ← List.append_nil (l.flatMap _), chunks_append hnl]
      have hbytes : (l.flatMap String.utf8EncodeChar).reverse.isEmpty = false := by
        simpa [lineBytes hlc] using hne l List.mem_cons_self
      simp only [chunks, List.append_nil, hbytes, Bool.false_eq_true, if_false, List.reverse_reverse,
        List.mapM_cons, List.mapM_nil, readLine_of_lineChars hlc]
      rfl
    | cons l' rest =>
      rw [List.intercalate_cons_cons, List.flatMap_append, List.flatMap_append, List.append_assoc,
        chunks_append hnl]
      have hsep : List.flatMap String.utf8EncodeChar ['\n'] = [10] := by decide
      rw [hsep, List.singleton_append, chunks, if_pos rfl]
      have hpiece : (10 :: ((l.flatMap String.utf8EncodeChar).reverse ++ [])).reverse =
          (l ++ ['\n']).flatMap String.utf8EncodeChar := by
        simp [hsep]
      rw [hpiece, List.mapM_cons, readLine_of_lineChars_newline hlc,
        ih (fun l h => hne l (List.mem_cons_of_mem _ h)) (fun l h => hl l (List.mem_cons_of_mem _ h))]
      rfl

/-- A program text of nonempty lines of `LineChar`s reads back as those lines. -/
theorem read_text {ls : List String} (hne : ∀ l ∈ ls, l ≠ "")
    (hl : ∀ l ∈ ls, ∀ c ∈ l.toList, LineChar c) : read ("\n".intercalate ls).toUTF8.toList = .ok ⟨ls⟩ := by
  have hne' : ∀ l ∈ ls.map String.toList, l ≠ [] := by
    simpa [String.toList_eq_nil_iff] using hne
  have hl' : ∀ l ∈ ls.map String.toList, ∀ c ∈ l, LineChar c := by simpa using hl
  rw [toUTF8_toList, String.toList_intercalate]
  simpa using read_intercalate hne' hl'

end Program

end StackMachine
