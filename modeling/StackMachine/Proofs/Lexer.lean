import Mathlib
import StackMachine.Proofs.Words
/-!
# Reading a line, word by word

The cursor's readers, each described by how it splits the characters it is given. Every
reader gets a `_complete` lemma (a line of the described shape is read so) and a `_sound`
lemma (what is read has that shape): `nextWord?` takes blanks and then a word up to a blank
or a `;`; `bracketed?` takes blanks and a bracket whose inside has no `[`, `]` or `;` and is
not blank; `operand?` takes either. `operand?_of_word`, `operand?_of_brackets` and
`operand?_sound` describe the operand reader in terms of the words of `Arg.SpelledBy`.
-/

namespace StackMachine

open Text

/-! ## Blanks and word ends -/

/-- Characters that are all blank. -/
def Blanks (cs : List Char) : Prop := ∀ ch ∈ cs, isBlank ch = true

/-- Characters none of which ends a word. -/
def WordChars (cs : List Char) : Prop := ∀ ch ∈ cs, Cursor.endsWord ch = false

/-- What may follow a word: the end of the line, a blank or a `;`. -/
def WordEnd (cs : List Char) : Prop := ∀ ch ∈ cs.head?, Cursor.endsWord ch = true

/-- What is left once the code of a line is over: nothing, or a comment. -/
def CodeEnd (cs : List Char) : Prop := ∀ ch ∈ cs.head?, ch = ';'

theorem takeWhile_exact {p : Char → Bool} {xs ys : List Char} (hx : ∀ x ∈ xs, p x = true)
    (hy : ∀ y ∈ ys.head?, p y = false) : (xs ++ ys).takeWhile p = xs := by
  rw [List.takeWhile_append_of_pos hx]
  cases ys with
  | nil => simp
  | cons y ys => simp [hy y rfl]

theorem dropWhile_exact {p : Char → Bool} {xs ys : List Char} (hx : ∀ x ∈ xs, p x = true)
    (hy : ∀ y ∈ ys.head?, p y = false) : (xs ++ ys).dropWhile p = ys := by
  rw [List.dropWhile_append_of_pos hx]
  cases ys with
  | nil => rfl
  | cons y ys => simp [hy y rfl]

theorem isBlank_of_endsWord {ch : Char} (h : Cursor.endsWord ch = false) : isBlank ch = false := by
  simp_all [Cursor.endsWord]

theorem ne_semicolon_of_endsWord {ch : Char} (h : Cursor.endsWord ch = false) : ch ≠ ';' := by
  rintro rfl
  simp [Cursor.endsWord] at h

namespace Cursor

theorem skipBlanks_of_split {c : Cursor} {b r : List Char} (hc : c.rest = b ++ r) (hb : Blanks b)
    (hr : ∀ ch ∈ r.head?, isBlank ch = false) :
    c.skipBlanks = ⟨r, c.pos + byteLength b, c.line⟩ := by
  simp [skipBlanks, hc, takeWhile_exact hb hr, dropWhile_exact hb hr]

theorem skipBlanks_split (c : Cursor) : ∃ b, c.rest = b ++ c.skipBlanks.rest ∧ Blanks b ∧
    (∀ ch ∈ c.skipBlanks.rest.head?, isBlank ch = false) ∧
    c.skipBlanks.pos = c.pos + byteLength b ∧ c.skipBlanks.line = c.line := by
  refine ⟨c.rest.takeWhile isBlank, List.takeWhile_append_dropWhile.symm,
    fun ch h => List.mem_takeWhile_imp h, fun ch h => ?_, rfl, rfl⟩
  have hhead := List.head?_dropWhile_not isBlank c.rest
  simp only [skipBlanks] at h
  rw [h] at hhead
  exact hhead

theorem nextWord?_complete {c : Cursor} {b w r : List Char} (hc : c.rest = b ++ w ++ r)
    (hb : Blanks b) (hw : w ≠ []) (hword : WordChars w) (hr : WordEnd r) :
    c.nextWord? = some (⟨w, ⟨c.pos + byteLength b, byteLength w⟩⟩,
      ⟨r, c.pos + byteLength b + byteLength w, c.line⟩) := by
  obtain ⟨x, w', rfl⟩ := List.exists_cons_of_ne_nil hw
  have hx := hword x List.mem_cons_self
  have hskip := skipBlanks_of_split (c := c) (r := x :: w' ++ r) (by simp [hc]) hb
    (by simpa using isBlank_of_endsWord hx)
  have hsemi := ne_semicolon_of_endsWord hx
  have htake : (x :: w' ++ r).takeWhile (fun ch => !endsWord ch) = x :: w' :=
    takeWhile_exact (fun ch h => by simpa using hword ch h) (fun ch h => by simpa using hr ch h)
  have hdrop : (x :: w' ++ r).dropWhile (fun ch => !endsWord ch) = r :=
    dropWhile_exact (fun ch h => by simpa using hword ch h) (fun ch h => by simpa using hr ch h)
  unfold nextWord?
  rw [hskip]
  simp only [List.cons_append]
  split
  · contradiction
  · rename_i h; exact absurd (List.cons.inj h).1 hsemi
  · simp only [← List.cons_append, htake, hdrop]

theorem nextWord?_sound {c : Cursor} {w : Word} {c' : Cursor} (h : c.nextWord? = some (w, c')) :
    ∃ b, c.rest = b ++ w.chars ++ c'.rest ∧ Blanks b ∧ w.chars ≠ [] ∧ WordChars w.chars ∧
      WordEnd c'.rest ∧ w.span = ⟨c.pos + byteLength b, byteLength w.chars⟩ ∧
      c'.pos = c.pos + byteLength b + byteLength w.chars ∧ c'.line = c.line := by
  obtain ⟨b, hsplit, hb, hhead, hpos, hline⟩ := skipBlanks_split c
  unfold nextWord? at h
  dsimp only at h
  split at h
  · cases h
  · cases h
  · rename_i hnil hsemi
    simp only [Option.some.injEq, Prod.mk.injEq] at h
    obtain ⟨rfl, rfl⟩ := h
    have hword : WordChars (c.skipBlanks.rest.takeWhile fun ch => !endsWord ch) := fun ch hch => by
      simpa using List.mem_takeWhile_imp hch
    refine ⟨b, ?_, hb, ?_, hword, ?_, by simp [hpos], by simp [hpos], by simp [hline]⟩
    · rw [hsplit, List.append_assoc, List.takeWhile_append_dropWhile]
    · rcases hrest : c.skipBlanks.rest with _ | ⟨x, xs⟩
      · exact absurd hrest hnil
      have hx : isBlank x = false := hhead x (by simp [hrest])
      have hx' : x ≠ ';' := fun h => hsemi xs (by rw [hrest, h])
      simp [endsWord, hx, hx']
    · intro ch hch
      have hhd := List.head?_dropWhile_not (fun ch => !endsWord ch) c.skipBlanks.rest
      simp only at hch
      rw [hch] at hhd
      simpa using hhd

theorem nextWord?_eq_none_iff {c : Cursor} :
    c.nextWord? = none ↔ ∃ b r, c.rest = b ++ r ∧ Blanks b ∧ CodeEnd r := by
  constructor
  · intro h
    obtain ⟨b, hsplit, hb, -, -, -⟩ := skipBlanks_split c
    refine ⟨b, c.skipBlanks.rest, hsplit, hb, ?_⟩
    unfold nextWord? at h
    dsimp only at h
    split at h
    · rename_i hrest; simp [hrest, CodeEnd]
    · rename_i t hrest; simp [hrest, CodeEnd]
    · cases h
  · rintro ⟨b, r, hc, hb, hr⟩
    have hskip := skipBlanks_of_split hc hb (fun ch hch => by rw [hr ch hch]; decide)
    unfold nextWord?
    rw [hskip]
    rcases r with _ | ⟨x, r⟩
    · rfl
    · obtain rfl : x = ';' := hr x rfl
      rfl

end Cursor

/-! ## Trimming -/

theorem trim_exact {b1 t b2 : List Char} (h1 : Blanks b1) (h2 : Blanks b2) (ht : t ≠ [])
    (hhead : ∀ ch ∈ t.head?, isBlank ch = false) (hlast : ∀ ch ∈ t.getLast?, isBlank ch = false) :
    trim (b1 ++ t ++ b2) = t := by
  have hb2 : ∀ ch ∈ b2.reverse, isBlank ch = true := fun ch h => h2 ch (List.mem_reverse.1 h)
  have hfront : ∀ ch ∈ (t ++ b2).head?, isBlank ch = false := by
    obtain ⟨x, t', rfl⟩ := List.exists_cons_of_ne_nil ht
    simpa using hhead
  have hback : ∀ ch ∈ t.reverse.head?, isBlank ch = false := by
    intro ch h
    rw [List.head?_reverse] at h
    exact hlast ch h
  rw [trim, trimStart, trimEnd, List.append_assoc, dropWhile_exact h1 hfront, List.reverse_append,
    dropWhile_exact hb2 hback, List.reverse_reverse]

theorem trim_split (cs : List Char) : ∃ b1 b2, cs = b1 ++ trim cs ++ b2 ∧ Blanks b1 ∧ Blanks b2 := by
  refine ⟨cs.takeWhile isBlank, ((cs.dropWhile isBlank).reverse.takeWhile isBlank).reverse, ?_,
    fun ch h => List.mem_takeWhile_imp h, fun ch h => List.mem_takeWhile_imp (List.mem_reverse.1 h)⟩
  have hback : (cs.dropWhile isBlank) = trimEnd (cs.dropWhile isBlank) ++
      ((cs.dropWhile isBlank).reverse.takeWhile isBlank).reverse := by
    rw [trimEnd, ← List.reverse_append, List.takeWhile_append_dropWhile, List.reverse_reverse]
  conv_lhs => rw [← List.takeWhile_append_dropWhile (p := isBlank) (l := cs), hback]
  rw [trim, trimStart, List.append_assoc]

namespace Cursor

/-! ## Operands in brackets -/

theorem bracketed?_of_head {c : Cursor} (h : ∀ ch ∈ c.skipBlanks.rest.head?, ch ≠ '[') :
    c.bracketed? = .ok none := by
  unfold bracketed?
  dsimp only
  split
  · rename_i after hafter
    exact absurd rfl (h '[' (by simp [hafter]))
  · rfl

/-- A list whose longest prefix of `p`-characters is not all of it goes on with a character
that is not one. -/
theorem takeWhile_append_cons {p : Char → Bool} {l : List Char}
    (h : (l.takeWhile p).length ≠ l.length) :
    ∃ x rest, l = l.takeWhile p ++ x :: rest ∧ p x = false := by
  rcases hd : l.dropWhile p with _ | ⟨x, rest⟩
  · have := List.takeWhile_append_dropWhile (p := p) (l := l)
    rw [hd, List.append_nil] at this
    exact absurd (congrArg List.length this) h
  · refine ⟨x, rest, by rw [← hd, List.takeWhile_append_dropWhile], ?_⟩
    have := List.head?_dropWhile_not p l
    rw [hd] at this
    exact this

theorem bracketed?_complete {c : Cursor} {b inner r : List Char}
    (hc : c.rest = b ++ '[' :: inner ++ ']' :: r) (hb : Blanks b)
    (hinner : ∀ ch ∈ inner, ch ≠ ']' ∧ ch ≠ '[' ∧ ch ≠ ';') (hw : trim inner ≠ []) :
    c.bracketed? = .ok (some (⟨trim inner, ⟨c.pos + byteLength b + 1 +
      byteLength (inner.takeWhile isBlank), byteLength (trim inner)⟩⟩,
      ⟨r, c.pos + byteLength b + byteLength inner + 2, c.line⟩)) := by
  have hskip := skipBlanks_of_split (c := c) (r := '[' :: inner ++ ']' :: r)
    (by simp [hc]) hb (by simp; decide)
  have hcode : (inner ++ ']' :: r).takeWhile (· ≠ ';') = inner ++ ']' :: r.takeWhile (· ≠ ';') := by
    rw [List.takeWhile_append_of_pos (fun ch h => by simpa using (hinner ch h).2.2)]
    simp
  have hin : (inner ++ ']' :: r.takeWhile (· ≠ ';')).takeWhile (· ≠ ']') = inner :=
    takeWhile_exact (fun ch h => by simpa using (hinner ch h).1) (by simp)
  have hopen : '[' ∉ inner := fun h => (hinner '[' h).2.1 rfl
  unfold bracketed?
  simp only [hskip, List.cons_append]
  rw [← List.cons_append, hcode, hin, if_neg (by simp [hopen]), if_neg (by simpa using hw)]
  have hdrop : (inner ++ ']' :: r).drop (inner.length + 1) = r := by
    simp [List.drop_append]
  rw [hdrop]

theorem bracketed?_sound {c : Cursor} {w : Word} {c' : Cursor}
    (h : c.bracketed? = .ok (some (w, c'))) :
    ∃ b inner, c.rest = b ++ '[' :: inner ++ ']' :: c'.rest ∧ Blanks b ∧
      (∀ ch ∈ inner, ch ≠ ']' ∧ ch ≠ '[' ∧ ch ≠ ';') ∧ w.chars = trim inner ∧ w.chars ≠ [] ∧
      c'.line = c.line := by
  obtain ⟨b, hsplit, hb, -, -, hline⟩ := skipBlanks_split c
  unfold bracketed? at h
  dsimp only at h
  split at h
  · rename_i after hafter
    split_ifs at h with hclosed hempty
    · simp [fail] at h
    · simp [fail] at h
    simp only [Except.ok.injEq, Option.some.injEq, Prod.mk.injEq] at h
    obtain ⟨rfl, rfl⟩ := h
    obtain ⟨x, more, hcode, hx⟩ := takeWhile_append_cons (p := (· ≠ ']'))
      (l := after.takeWhile (· ≠ ';')) (fun h => hclosed (.inl h))
    have hxc : x = ']' := by simpa using hx
    subst hxc
    set inner := (after.takeWhile (· ≠ ';')).takeWhile (· ≠ ']')
    have hafter' : after = inner ++ ']' :: (more ++ after.dropWhile (· ≠ ';')) := by
      conv_lhs => rw [← List.takeWhile_append_dropWhile (p := (· ≠ ';')) (l := after), hcode]
      simp
    refine ⟨b, inner, ?_, hb, fun ch hch => ⟨?_, ?_, ?_⟩, rfl, by simpa using hempty, by simp [hline]⟩
    · rw [hsplit, hafter, hafter']
      simp [List.drop_append]
    · simpa using List.mem_takeWhile_imp hch
    · rintro rfl
      exact hclosed (.inr hch)
    · simpa using List.mem_takeWhile_imp ((List.takeWhile_prefix _).subset hch)
  · cases h

end Cursor

/-! ## Operands -/

theorem PlainChar.endsWord {ch : Char} (h : PlainChar ch) : Cursor.endsWord ch = false := by
  simp [Cursor.endsWord, h.isBlank, h.ne.1]

theorem blank_ne {ch : Char} (h : isBlank ch = true) : ch ≠ ';' ∧ ch ≠ '[' ∧ ch ≠ ']' := by
  refine ⟨?_, ?_, ?_⟩ <;> (rintro rfl; revert h; decide)

namespace Cursor

theorem checkBrackets_eq_ok_iff {c : Cursor} {w : Word} :
    c.checkBrackets w = .ok () ↔ ']' ∉ w.chars ∧ '[' ∉ w.chars := by
  unfold checkBrackets
  split_ifs with h1 h2 <;> simp [fail, *]

theorem operand?_eq_ok_iff {c : Cursor} {res : Option (OperandSyntax × Cursor)} :
    c.operand? = .ok res ↔
      (res = none ∧ c.bracketed? = .ok none ∧ c.nextWord? = none) ∨
      (∃ o c', res = some (o, c') ∧ classify o.word = .ok o.arg ∧
        ((o.indirect = true ∧ c.bracketed? = .ok (some (o.word, c'))) ∨
          (o.indirect = false ∧ c.bracketed? = .ok none ∧ c.nextWord? = some (o.word, c') ∧
            c.checkBrackets o.word = .ok ()))) := by
  unfold operand?
  simp only [bind, Except.bind, pure, Except.pure]
  constructor
  · intro h
    rcases hb : c.bracketed? with e | _ | ⟨w, next⟩ <;> rw [hb] at h
    · cases h
    · rcases hn : c.nextWord? with _ | ⟨w, next⟩ <;> simp only [hn] at h
      · exact .inl ⟨(Except.ok.inj h).symm, rfl, rfl⟩
      · rcases hc : c.checkBrackets w with e | ⟨⟩ <;> simp only [hc] at h
        · cases h
        · rcases hcl : classify w with e | arg <;> simp only [hcl] at h
          · cases h
          · exact .inr ⟨⟨arg, w, false⟩, next, (Except.ok.inj h).symm, hcl, .inr ⟨rfl, rfl, rfl, hc⟩⟩
    · rcases hcl : classify w with e | arg <;> simp only [hcl] at h
      · cases h
      · exact .inr ⟨⟨arg, w, true⟩, next, (Except.ok.inj h).symm, hcl, .inl ⟨rfl, rfl⟩⟩
  · rintro (⟨rfl, hb, hn⟩ | ⟨⟨arg, w, ind⟩, c', rfl, hcl, ⟨rfl, hb⟩ | ⟨rfl, hb, hn, hc⟩⟩)
    · simp only [hb, hn]
    · simp only at hcl hb
      simp only [hb, hcl]
    · simp only at hcl hb hn hc
      simp only [hb, hn, hc, hcl]

theorem operand?_eq_ok_none {c : Cursor} :
    c.operand? = .ok none ↔ ∃ b r, c.rest = b ++ r ∧ Blanks b ∧ CodeEnd r := by
  rw [operand?_eq_ok_iff, ← nextWord?_eq_none_iff]
  constructor
  · rintro (⟨-, -, hn⟩ | ⟨_, _, h, -⟩)
    · exact hn
    · cases h
  · intro hn
    -- with the code over, the next character that is not blank is no `[`
    obtain ⟨b, r, hc, hb, hr⟩ := nextWord?_eq_none_iff.1 hn
    have hskip := skipBlanks_of_split hc hb (fun ch hch => by rw [hr ch hch]; decide)
    refine .inl ⟨rfl, bracketed?_of_head fun ch hch => ?_, hn⟩
    rw [hskip] at hch
    rw [hr ch hch]
    decide

theorem operand?_of_word {c : Cursor} {b t r : List Char} {arg : Arg} (hc : c.rest = b ++ t ++ r)
    (hb : Blanks b) (hs : arg.SpelledBy t) (hr : WordEnd r) :
    ∃ w c', c.operand? = .ok (some (⟨arg, w, false⟩, c')) ∧ w.chars = t ∧ c'.rest = r := by
  obtain ⟨hne, hplain⟩ := hs.plain
  obtain ⟨x, t', rfl⟩ := List.exists_cons_of_ne_nil hne
  have hn := nextWord?_complete hc hb hne (fun ch h => (hplain ch h).endsWord) hr
  have hbr : c.bracketed? = .ok none := by
    refine bracketed?_of_head fun ch hch => ?_
    rw [skipBlanks_of_split (r := x :: t' ++ r) (by simp [hc]) hb
      (by simpa using (hplain x List.mem_cons_self).isBlank)] at hch
    simp only [List.cons_append, List.head?_cons, Option.mem_def, Option.some.injEq] at hch
    exact hch ▸ (hplain x List.mem_cons_self).ne.2.1
  refine ⟨_, _, operand?_eq_ok_iff.2 (.inr ⟨⟨arg, _, false⟩, _, rfl, classify_eq_ok_iff.2 hs,
    .inr ⟨rfl, hbr, hn, checkBrackets_eq_ok_iff.2 ⟨?_, ?_⟩⟩⟩), rfl, rfl⟩
  · exact fun h => (hplain _ h).ne.2.2.1 rfl
  · exact fun h => (hplain _ h).ne.2.1 rfl

theorem operand?_of_brackets {c : Cursor} {b b1 t b2 r : List Char} {arg : Arg}
    (hc : c.rest = b ++ '[' :: (b1 ++ t ++ b2) ++ ']' :: r) (hb : Blanks b) (hb1 : Blanks b1)
    (hb2 : Blanks b2) (hs : arg.SpelledBy t) :
    ∃ w c', c.operand? = .ok (some (⟨arg, w, true⟩, c')) ∧ w.chars = t ∧ c'.rest = r := by
  obtain ⟨hne, hplain⟩ := hs.plain
  have hinner : ∀ ch ∈ b1 ++ t ++ b2, ch ≠ ']' ∧ ch ≠ '[' ∧ ch ≠ ';' := by
    intro ch hch
    simp only [List.mem_append] at hch
    rcases hch with (h | h) | h
    · have := blank_ne (hb1 ch h); exact ⟨this.2.2, this.2.1, this.1⟩
    · have := (hplain ch h).ne; exact ⟨this.2.2.1, this.2.1, this.1⟩
    · have := blank_ne (hb2 ch h); exact ⟨this.2.2, this.2.1, this.1⟩
  have htrim : trim (b1 ++ t ++ b2) = t := by
    refine trim_exact hb1 hb2 hne (fun ch h => (hplain ch (List.mem_of_mem_head? h)).isBlank)
      (fun ch h => (hplain ch (List.mem_of_mem_getLast? h)).isBlank)
  have hbr := bracketed?_complete hc hb hinner (by rw [htrim]; exact hne)
  rw [htrim] at hbr
  exact ⟨_, _, operand?_eq_ok_iff.2 (.inr ⟨⟨arg, _, true⟩, _, rfl, classify_eq_ok_iff.2 hs,
    .inl ⟨rfl, hbr⟩⟩), rfl, rfl⟩

theorem operand?_sound {c c' : Cursor} {o : OperandSyntax} (h : c.operand? = .ok (some (o, c'))) :
    o.arg.SpelledBy o.word.chars ∧ ∃ b, Blanks b ∧
      ((o.indirect = false ∧ c.rest = b ++ o.word.chars ++ c'.rest ∧ WordEnd c'.rest) ∨
        (o.indirect = true ∧ ∃ b1 b2, Blanks b1 ∧ Blanks b2 ∧
          c.rest = b ++ '[' :: (b1 ++ o.word.chars ++ b2) ++ ']' :: c'.rest)) := by
  obtain (⟨h, -⟩ | ⟨o', c'', h, hcl, hread⟩) := operand?_eq_ok_iff.1 h
  · cases h
  obtain ⟨rfl, rfl⟩ := Prod.mk.inj (Option.some.inj h)
  refine ⟨classify_eq_ok_iff.1 hcl, ?_⟩
  rcases hread with ⟨hind, hb⟩ | ⟨hind, -, hn, -⟩
  · obtain ⟨b, inner, hc, hblank, -, hw, -, -⟩ := bracketed?_sound hb
    obtain ⟨b1, b2, hsplit, hb1, hb2⟩ := trim_split inner
    rw [← hw] at hsplit
    exact ⟨b, hblank, .inr ⟨hind, b1, b2, hb1, hb2, by rw [hc, ← hsplit]⟩⟩
  · obtain ⟨b, hc, hblank, -, -, hend, -⟩ := nextWord?_sound hn
    exact ⟨b, hblank, .inl ⟨hind, hc, hend⟩⟩

end Cursor

end StackMachine
