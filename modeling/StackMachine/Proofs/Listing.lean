import Mathlib
import StackMachine.Proofs.Codec
/-!
# Listing a payload

`listing` walks the code from offset 0: it decodes the instruction where it stands, moves past
it, and stops once it is at the end of the code. It always stops, since every instruction takes
at least one byte (`listFrom` recurses on the bytes left). `Walk code a L b` says the same
without the recursion: from offset `a`, the instructions of `L` decode one after another, each
at the offset the sizes before it give, and the walk ends at offset `b`.

`listing_walks_payload`: the listing is `L` exactly when `L` walks from 0 to the end of the
code, and then its offsets rise strictly from 0 and its sizes add up to the code's length. It
fails with `e` exactly when a walk from 0 stops at an offset inside the code where decoding
fails with `e`; a truncated operand there is reported one byte past that offset.
-/

namespace StackMachine

/-- From offset `a`, the instructions of `L` decode one after another, each listed with its
offset, and the walk ends at offset `b`. -/
inductive Walk (code : Array UInt8) : Nat → List (Nat × Instruction) → Nat → Prop
  | nil (a : Nat) : Walk code a [] a
  | cons {a b : Nat} {i : Instruction} {L : List (Nat × Instruction)} :
      decodeAt code a = .ok i → Walk code (a + i.size) L b → Walk code a ((a, i) :: L) b

namespace Walk

variable {code : Array UInt8} {a b : Nat} {L : List (Nat × Instruction)}

/-- A walk never goes back, and each entry stands between its start and its end. -/
theorem mem_bounds (h : Walk code a L b) : a ≤ b ∧ ∀ x ∈ L, a ≤ x.1 ∧ x.1 < b := by
  induction h with
  | nil => exact ⟨le_rfl, fun _ hx => (List.not_mem_nil hx).elim⟩
  | @cons a b i L _ _ ih =>
    have hpos := i.size_pos
    refine ⟨by omega, fun x hx => ?_⟩
    rcases List.mem_cons.1 hx with rfl | hx
    · exact ⟨le_rfl, by omega⟩
    · have := ih.2 x hx
      omega

/-- The sizes of the instructions walked over add up to the distance walked. -/
theorem size_sum (h : Walk code a L b) : a + (L.map (·.2.size)).sum = b := by
  induction h with
  | nil => simp
  | cons _ _ ih =>
    simp only [List.map_cons, List.sum_cons]
    omega

/-- The offsets of a walk rise strictly. -/
theorem offsets_pairwise (h : Walk code a L b) : (L.map (·.1)).Pairwise (· < ·) := by
  induction h with
  | nil => exact List.Pairwise.nil
  | @cons a b i L _ hrest ih =>
    rw [List.map_cons, List.pairwise_cons]
    refine ⟨fun y hy => ?_, ih⟩
    obtain ⟨x, hx, rfl⟩ := List.mem_map.1 hy
    have := (hrest.mem_bounds.2 x hx).1
    have := i.size_pos
    omega

/-- A walk's first entry stands where the walk starts. -/
theorem head_offset (h : Walk code a L b) : ∀ x ∈ L.head?, x.1 = a := by
  cases h with
  | nil => exact fun x hx => (Option.not_mem_none x hx).elim
  | cons => simp

/-- Nothing can be walked from the end of the code: no instruction decodes there. -/
theorem eq_nil_of_size_le (h : Walk code a L b) (ha : code.size ≤ a) : L = [] := by
  cases h with
  | nil => rfl
  | @cons _ _ i _ hdec _ =>
    have := decodeAt_fits hdec
    have := i.size_pos
    omega

end Walk

/-! ## The listing's recursion and the walk -/

/-- From an offset inside the code or at its end, the listing is what walks to the end. -/
theorem listFrom_eq_ok_iff {code : Array UInt8} {pos : Nat} {L : List (Nat × Instruction)}
    (hpos : pos ≤ code.size) : listFrom code pos = .ok L ↔ Walk code pos L code.size := by
  fun_induction listFrom code pos generalizing L with
  | case1 pos _ e hdec =>
    constructor
    · intro h
      cases h
    · intro h
      cases h with
      | nil => omega
      | cons hok _ => rw [hdec] at hok; cases hok
  | case2 pos _ i hdec ih =>
    have hfits := decodeAt_fits hdec
    constructor
    · intro h
      rcases hrest : listFrom code (pos + i.size) with e | L'
      · rw [hrest] at h
        cases h
      rw [hrest] at h
      cases h
      exact .cons hdec ((ih hfits).1 hrest)
    · intro h
      cases h with
      | nil => omega
      | cons hok hrest =>
        rw [hdec] at hok
        cases hok
        rw [(ih hfits).2 hrest]
        rfl
  | case3 pos hend =>
    have hsize : pos = code.size := by omega
    subst hsize
    constructor
    · intro h
      cases h
      exact .nil _
    · intro h
      rw [h.eq_nil_of_size_le le_rfl]

/-- From an offset inside the code or at its end, the listing fails with `e` exactly when a
walk from there stops inside the code at an offset where decoding fails with `e`. -/
theorem listFrom_eq_error_iff {code : Array UInt8} {pos : Nat} {e : DecodeError}
    (hpos : pos ≤ code.size) :
    listFrom code pos = .error e ↔
      ∃ L a, Walk code pos L a ∧ a < code.size ∧ decodeAt code a = .error e := by
  fun_induction listFrom code pos generalizing e with
  | case1 pos hlt e' hdec =>
    constructor
    · intro h
      cases h
      exact ⟨[], pos, .nil _, hlt, hdec⟩
    · rintro ⟨L, a, hw, -, herr⟩
      -- a walk from `pos` cannot take a step, so it stops at `pos`
      cases hw with
      | nil =>
        rw [hdec] at herr
        cases herr
        rfl
      | cons hok _ => rw [hdec] at hok; cases hok
  | case2 pos _ i hdec ih =>
    have hnext := ih (decodeAt_fits hdec) (e := e)
    constructor
    · intro h
      rcases hrest : listFrom code (pos + i.size) with e' | L'
      · rw [hrest] at h
        cases h
        obtain ⟨L, a, hw, ha, herr⟩ := hnext.1 hrest
        exact ⟨(pos, i) :: L, a, .cons hdec hw, ha, herr⟩
      · rw [hrest] at h
        cases h
    · rintro ⟨L, a, hw, ha, herr⟩
      cases hw with
      | nil => rw [hdec] at herr; cases herr
      | cons hok hrest =>
        rw [hdec] at hok
        cases hok
        rw [hnext.2 ⟨_, a, hrest, ha, herr⟩]
        rfl
  | case3 pos hend =>
    constructor
    · intro h
      cases h
    · rintro ⟨L, a, hw, ha, -⟩
      have := hw.mem_bounds.1
      omega

/-- Inside the code, decoding reports a truncation only of an operand: one byte past the
offset. -/
theorem truncated_past_opcode {code : Array UInt8} {a t : Nat} (ha : a < code.size)
    (h : decodeAt code a = .error (.truncated t)) : t = a + 1 := by
  cases hf : decodeAt_eq_error_iff.1 h with
  | noByte hsize => omega
  | shortOperand => rfl

/-- The listing walks the payload exactly. It is `L` exactly when the instructions of `L`
decode one after another from offset 0 to the end of the code, each at the sum of the sizes
before it; its offsets then rise strictly from 0 and its sizes add up to the code's length. It
fails exactly when that walk stops inside the code, with the error of decoding there, and a
truncated operand is reported one byte past the instruction's offset. -/
theorem listing_walks_payload (code : Array UInt8) :
    (∀ L, listing code = .ok L ↔ Walk code 0 L code.size) ∧
    (∀ L, listing code = .ok L →
      (L.map (·.1)).Pairwise (· < ·) ∧ (∀ x ∈ L.head?, x.1 = 0) ∧
        (L.map (·.2.size)).sum = code.size) ∧
    (∀ e, listing code = .error e ↔
      ∃ L a, Walk code 0 L a ∧ a < code.size ∧ decodeAt code a = .error e) ∧
    (∀ a t, a < code.size → decodeAt code a = .error (.truncated t) → t = a + 1) := by
  have hok : ∀ L, listing code = .ok L ↔ Walk code 0 L code.size :=
    fun _ => listFrom_eq_ok_iff (Nat.zero_le _)
  refine ⟨hok, fun L h => ?_, fun _ => listFrom_eq_error_iff (Nat.zero_le _),
    fun _ _ => truncated_past_opcode⟩
  have hw := (hok L).1 h
  refine ⟨hw.offsets_pairwise, hw.head_offset, ?_⟩
  simpa using hw.size_sum

/-- `print` and then a `push` cut after one operand byte: the listing stops with a truncation one
byte past the `push`. With the operand whole, the two list from offsets 0 and 1 and cover the
six bytes. -/
theorem listing_print_then_push :
    let short : Array UInt8 := #[7, 1, 7]
    let full : Array UInt8 := #[7, 1, 7, 0, 0, 0]
    let L : List (Nat × Instruction) := [(0, .print), (1, .push (.imm 7))]
    (listing short = .error (.truncated 2) ∧ ∃ t, decodeAt short 1 = .error (.truncated t) ∧
      t = 1 + 1) ∧
      (listing full = .ok L ∧ (L.map (·.1)).Pairwise (· < ·) ∧
        (L.map (·.2.size)).sum = full.size) := by
  intro short full L
  have hs0 : decodeAt short 0 = .ok .print := by simp only [short]; rfl
  have hs1 : decodeAt short 1 = .error (.truncated 2) := by simp only [short]; rfl
  have hf0 : decodeAt full 0 = .ok .print := by simp only [full]; rfl
  have hf1 : decodeAt full 1 = .ok (.push (.imm 7)) := by simp only [full]; rfl
  have hshort := listing_walks_payload short
  have hfull := listing_walks_payload full
  have hlist : listing full = .ok L := (hfull.1 L).2 (.cons hf0 (.cons hf1 (.nil _)))
  have hL := hfull.2.1 L hlist
  exact ⟨⟨(hshort.2.2.1 _).2 ⟨[(0, .print)], 1, .cons hs0 (.nil _), by decide, hs1⟩,
    2, hs1, hshort.2.2.2 1 2 (by decide) hs1⟩, hlist, hL.1, hL.2.2⟩

end StackMachine
