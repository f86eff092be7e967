import Mathlib
import StackMachine.Proofs.Execution
/-!
# The instruction table

`Executes` writes the machine's instruction table as rules, one for each row, with the row's
guard as premises: enough values on the stack, a jump target inside the code, a memory
address inside the memory, a nonzero divisor, a saved return address, a line of input that
holds a number. The rules speak of the integers the words stand for, so arithmetic is
integer arithmetic wrapped to 32 bits and comparisons are signed.

`Fails` writes the failures as rules too, one for each check an instruction makes, with the
error that check reports: the stack underflow with the count needed and the count there, the
bad address or target, the division by zero, the missing return address, the input that holds
no number. Each rule leaves the machine as the instruction leaves it.

`step_follows_table`: where `ip` stands on an instruction that decodes, a step completes
exactly when the table has a rule for it, and fails exactly when a failure rule applies, and
then as that rule says, once `ip` has moved past the instruction.
-/

namespace StackMachine

/-! ## The table -/

/-- The arithmetic operation on the integers the words stand for, before wrapping; division
truncates toward zero. -/
def Arith.exact : Arith → Int → Int → Int
  | .add, a, b => a + b
  | .sub, a, b => a - b
  | .mul, a, b => a * b
  | .div, a, b => a.tdiv b

/-- The comparison on the integers the words stand for. -/
def Comparison.test : Comparison → Int → Int → Prop
  | .above, a, b => b < a
  | .aboveOrEqual, a, b => b ≤ a
  | .below, a, b => a < b
  | .belowOrEqual, a, b => a ≤ b
  | .equal, a, b => a = b
  | .notEqual, a, b => a ≠ b

/-- The value a source denotes in a machine: an immediate, a register, or the memory cell at
an address that lies inside the memory. -/
inductive Source.Holds (m : Machine) : Source → Int32 → Prop
  | imm (v : Int32) : Source.Holds m (.imm v) v
  | reg (r : Register) : Source.Holds m (.reg r) (m.regs.get r)
  | mem {a : Int32} {x : Nat} {v : Int32} :
      a.toInt = x → m.ram[x]? = some v → Source.Holds m (.mem a) v
  | memAt {r : Register} {x : Nat} {v : Int32} :
      (m.regs.get r).toInt = x → m.ram[x]? = some v → Source.Holds m (.memAt r) v

/-- The machine a sink makes of `m` by writing `v` to it: `m` itself, `m` with a register set,
or `m` with the memory cell at an address inside the memory overwritten. -/
inductive Sink.Writes (m : Machine) (v : Int32) : Sink → Machine → Prop
  | discard : Sink.Writes m v .discard m
  | reg (r : Register) : Sink.Writes m v (.reg r) { m with regs := m.regs.set r v }
  | mem {a : Int32} {x : Nat} (ha : a.toInt = x) (hx : x < m.ram.size) :
      Sink.Writes m v (.mem a) { m with ram := m.ram.set x v hx }
  | memAt {r : Register} {x : Nat} (ha : (m.regs.get r).toInt = x) (hx : x < m.ram.size) :
      Sink.Writes m v (.memAt r) { m with ram := m.ram.set x v hx }

/-- The input starts with a line holding the number `v`, and `rest` follows that line. The
line runs through the first newline, or to the end of the input when there is none; read as
UTF-8 and trimmed of blanks, it is a 32-bit decimal integer. -/
def LineHolds (input : List UInt8) (v : Int32) (rest : List UInt8) : Prop :=
  ∃ line cs, input = line ++ rest ∧ line ≠ [] ∧
    ((∃ l, line = l ++ [10] ∧ 10 ∉ l) ∨ (10 ∉ line ∧ rest = [])) ∧
    Text.decode line = .ok cs ∧ Text.parseInt32? (Text.trim cs) = some v

/-- The instruction table. `Executes code m i f m'`: carrying out `i` on `m`, whose `ip`
already stands past `i`, completes with flow `f` and leaves `m'`. -/
inductive Executes (code : Array UInt8) (m : Machine) : Instruction → Flow → Machine → Prop
  /-- `hlt` stops the run. -/
  | halt : Executes code m .halt .halt m
  /-- `push` puts the value its source denotes on the stack. -/
  | push {src : Source} {v : Int32} :
      src.Holds m v → Executes code m (.push src) .next { m with stack := m.stack.push v }
  /-- `pop` writes the top value to its sink and removes it. -/
  | pop {dst : Sink} {v : Int32} {rest : List Int32} {m' : Machine} :
      m.stack.values = v :: rest → dst.Writes m v m' →
      Executes code m (.pop dst) .next { m' with stack := .ofValues rest }
  /-- `add`, `sub`, `mul` and `div` replace the top `b` and the value `a` below it by the
  result for `a` and `b`, wrapped to 32 bits; `div` needs `b ≠ 0`. -/
  | arith {op : Arith} {a b r : Int32} {rest : List Int32} :
      m.stack.values = b :: a :: rest → (op = .div → b ≠ 0) →
      r.toInt = (op.exact a.toInt b.toInt).bmod 4294967296 →
      Executes code m (.arith op) .next { m with stack := .ofValues (r :: rest) }
  /-- `out` prints the top value and leaves the stack as it is. -/
  | print {v : Int32} {rest : List Int32} :
      m.stack.values = v :: rest → Executes code m .print .next { m with printed := m.printed.push v }
  /-- `in` pushes the number on the next line of input and consumes the line. -/
  | read {v : Int32} {rest : List UInt8} :
      LineHolds m.input v rest →
      Executes code m .read .next { m with stack := m.stack.push v, input := rest }
  /-- `jmp` moves `ip` to its target, an offset inside the code. -/
  | jump {t : Int32} {x : Nat} :
      t.toInt = x → x < code.size → Executes code m (.jump t) .next { m with ip := x }
  /-- A conditional jump whose test holds of `a` and `b` removes them and moves `ip` to its
  target inside the code. -/
  | branchTaken {c : Comparison} {t a b : Int32} {rest : List Int32} {x : Nat} :
      m.stack.values = b :: a :: rest → c.test a.toInt b.toInt → t.toInt = x → x < code.size →
      Executes code m (.branch c t) .next { m with ip := x, stack := .ofValues rest }
  /-- A conditional jump whose test fails removes `a` and `b` and goes on. -/
  | branchNotTaken {c : Comparison} {t a b : Int32} {rest : List Int32} :
      m.stack.values = b :: a :: rest → ¬ c.test a.toInt b.toInt →
      Executes code m (.branch c t) .next { m with stack := .ofValues rest }
  /-- `call` saves `ip`, which stands past the call, and moves it to its target inside the
  code. -/
  | call {t : Int32} {x : Nat} :
      t.toInt = x → x < code.size →
      Executes code m (.call t) .next { m with ip := x, calls := m.ip :: m.calls }
  /-- `ret` moves `ip` to the latest saved return address and drops that address. -/
  | ret {back : Nat} {rest : List Nat} :
      m.calls = back :: rest → Executes code m .ret .next { m with ip := back, calls := rest }

/-- How carrying out an instruction fails. `Fails code m i e m'`: carrying out `i` on `m`,
whose `ip` already stands past `i`, fails with `e` and leaves `m'`. Each rule is one failing
check, with the checks the instruction makes before it passed. A memory address or a jump
target is bad when it is negative or not below the size of the memory or the code. -/
inductive Fails (code : Array UInt8) (m : Machine) : Instruction → RunError → Machine → Prop
  /-- `push` from a memory address outside the memory. -/
  | pushMem {a : Int32} : a.toInt < 0 ∨ m.ram.size ≤ a.toInt →
      Fails code m (.push (.mem a)) (.memoryOutOfBounds a) m
  /-- `push` from the memory at a register's value outside the memory. -/
  | pushMemAt {r : Register} : (m.regs.get r).toInt < 0 ∨ m.ram.size ≤ (m.regs.get r).toInt →
      Fails code m (.push (.memAt r)) (.memoryOutOfBounds (m.regs.get r)) m
  /-- `pop` on an empty stack: one value needed, none there. -/
  | popEmpty {dst : Sink} : m.stack.values = [] → Fails code m (.pop dst) (.stack ⟨1, 0⟩) m
  /-- `pop` to a memory address outside the memory keeps the value on the stack. -/
  | popMem {a v : Int32} {rest : List Int32} : m.stack.values = v :: rest →
      a.toInt < 0 ∨ m.ram.size ≤ a.toInt → Fails code m (.pop (.mem a)) (.memoryOutOfBounds a) m
  /-- `pop` to the memory at a register's value outside the memory. -/
  | popMemAt {r : Register} {v : Int32} {rest : List Int32} : m.stack.values = v :: rest →
      (m.regs.get r).toInt < 0 ∨ m.ram.size ≤ (m.regs.get r).toInt →
      Fails code m (.pop (.memAt r)) (.memoryOutOfBounds (m.regs.get r)) m
  /-- Arithmetic on fewer than two values: two needed, the depth there. -/
  | arithShort {op : Arith} : m.stack.size < 2 →
      Fails code m (.arith op) (.stack ⟨2, m.stack.size⟩) m
  /-- `div` by zero leaves both values where they were. -/
  | divByZero {a : Int32} {rest : List Int32} : m.stack.values = 0 :: a :: rest →
      Fails code m (.arith .div) .divisionByZero m
  /-- `out` on an empty stack. -/
  | printEmpty : m.stack.values = [] → Fails code m .print (.stack ⟨1, 0⟩) m
  /-- `in` with no input left. -/
  | readEnd : m.input = [] → Fails code m .read (.input .endOfInput) m
  /-- `in` whose line is not UTF-8 uses the line up. -/
  | readNotUtf8 {line rest : List UInt8} {u : Text.Utf8Error} :
      splitLine m.input = (line, rest) → line ≠ [] → Text.decode line = .error u →
      Fails code m .read (.input .notUtf8) { m with input := rest }
  /-- `in` whose line, trimmed, is no 32-bit integer uses the line up and reports the trimmed
  text. -/
  | readNotInteger {line rest : List UInt8} {cs : List Char} :
      splitLine m.input = (line, rest) → line ≠ [] → Text.decode line = .ok cs →
      Text.parseInt32? (Text.trim cs) = none →
      Fails code m .read (.input (.notInteger (String.ofList (Text.trim cs)))) { m with input := rest }
  /-- `jmp` to a target outside the code. -/
  | jump {t : Int32} : t.toInt < 0 ∨ code.size ≤ t.toInt →
      Fails code m (.jump t) (.jumpOutOfBounds t) m
  /-- A conditional jump on fewer than two values. -/
  | branchShort {c : Comparison} {t : Int32} : m.stack.size < 2 →
      Fails code m (.branch c t) (.stack ⟨2, m.stack.size⟩) m
  /-- A conditional jump whose test holds and whose target lies outside the code, after it
  has taken its two values. -/
  | branchEscapes {c : Comparison} {t a b : Int32} {rest : List Int32} :
      m.stack.values = b :: a :: rest → c.test a.toInt b.toInt →
      t.toInt < 0 ∨ code.size ≤ t.toInt →
      Fails code m (.branch c t) (.jumpOutOfBounds t) { m with stack := .ofValues rest }
  /-- `call` to a target outside the code saves no return address. -/
  | call {t : Int32} : t.toInt < 0 ∨ code.size ≤ t.toInt →
      Fails code m (.call t) (.jumpOutOfBounds t) m
  /-- `ret` with no return address saved. -/
  | ret : m.calls = [] → Fails code m .ret .returnUnderflow m

/-! ## Words as integers -/

theorem Arith.apply_eq_some_iff {op : Arith} {a b r : Int32} :
    op.apply a b = some r ↔
      (op = .div → b ≠ 0) ∧ r.toInt = (op.exact a.toInt b.toInt).bmod 4294967296 := by
  cases op with
  | add => simp [apply, exact, ← Int32.toInt_inj, Int32.toInt_add, eq_comm]
  | sub => simp [apply, exact, ← Int32.toInt_inj, Int32.toInt_sub, eq_comm]
  | mul => simp [apply, exact, ← Int32.toInt_inj, Int32.toInt_mul, eq_comm]
  | div =>
    by_cases hb : b = 0
    · simp [apply, hb]
    · simp [apply, exact, hb, ← Int32.toInt_inj, Int32.toInt_div, eq_comm]

theorem Comparison.holds_eq_true_iff {c : Comparison} {a b : Int32} :
    c.holds a b = true ↔ c.test a.toInt b.toInt := by
  cases c <;> simp [holds, test, Int32.lt_iff_toInt_lt, Int32.le_iff_toInt_le, ← Int32.toInt_inj]

/-- An address names a cell of the memory exactly when it is a natural number below its
size. -/
theorem inside_iff {a : Int32} {size : Nat} :
    (0 ≤ a.toInt ∧ a.toInt < size) ↔ ∃ x : Nat, a.toInt = x ∧ x < size := by
  constructor
  · rintro ⟨h0, hs⟩
    exact ⟨a.toInt.toNat, (Int.toNat_of_nonneg h0).symm, by omega⟩
  · rintro ⟨x, hx, hs⟩
    omega

theorem outside_iff {a : Int32} {size : Nat} :
    ¬ (0 ≤ a.toInt ∧ a.toInt < size) ↔ a.toInt < 0 ∨ size ≤ a.toInt := by
  omega

theorem clampNeg_of_toInt {a : Int32} {x : Nat} (h : a.toInt = x) : a.toNatClampNeg = x := by
  rw [← Int32.toNat_toInt, h, Int.toNat_natCast]

/-- The cell an address names, when it lies inside the memory, holds `v`. -/
theorem cell_getD_iff {ram : Array Int32} {a v : Int32} :
    ((0 ≤ a.toInt ∧ a.toInt < ram.size) ∧ ram[a.toNatClampNeg]?.getD 0 = v) ↔
      ∃ x : Nat, a.toInt = x ∧ ram[x]? = some v := by
  rw [inside_iff]
  constructor
  · rintro ⟨⟨x, hx, hs⟩, hv⟩
    rw [clampNeg_of_toInt hx, Array.getElem?_eq_getElem hs] at hv
    exact ⟨x, hx, by rw [Array.getElem?_eq_getElem hs, ← hv, Option.getD_some]⟩
  · rintro ⟨x, hx, hv⟩
    obtain ⟨hs, -⟩ := Array.getElem?_eq_some_iff.1 hv
    rw [clampNeg_of_toInt hx, hv, Option.getD_some]
    exact ⟨⟨x, hx, hs⟩, rfl⟩

/-- The machine with the cell an address names, when it lies inside the memory, set to `v`. -/
theorem cell_set_iff {m m' : Machine} {a v : Int32} :
    ((0 ≤ a.toInt ∧ a.toInt < m.ram.size) ∧
        { m with ram := m.ram.setIfInBounds a.toNatClampNeg v } = m') ↔
      ∃ x : Nat, a.toInt = x ∧ ∃ hx : x < m.ram.size, m' = { m with ram := m.ram.set x v hx } := by
  rw [inside_iff]
  constructor
  · rintro ⟨⟨x, hx, hs⟩, rfl⟩
    rw [clampNeg_of_toInt hx, Array.setIfInBounds_def, dif_pos hs]
    exact ⟨x, hx, hs, rfl⟩
  · rintro ⟨x, hx, hs, rfl⟩
    rw [clampNeg_of_toInt hx, Array.setIfInBounds_def, dif_pos hs]
    exact ⟨⟨x, hx, hs⟩, rfl⟩

/-! ## Reading the rules back -/

namespace Source

variable {m : Machine} {v : Int32}

@[simp] theorem holds_imm {w : Int32} : Holds m (.imm w) v ↔ v = w := by
  constructor
  · rintro ⟨⟩
    rfl
  · rintro rfl
    exact .imm v

@[simp] theorem holds_reg {r : Register} : Holds m (.reg r) v ↔ v = m.regs.get r := by
  constructor
  · rintro ⟨⟩
    rfl
  · rintro rfl
    exact .reg r

@[simp] theorem holds_mem {a : Int32} :
    Holds m (.mem a) v ↔ ∃ x : Nat, a.toInt = x ∧ m.ram[x]? = some v := by
  constructor
  · intro h
    cases h with
    | mem ha hv => exact ⟨_, ha, hv⟩
  · rintro ⟨x, ha, hv⟩
    exact .mem ha hv

@[simp] theorem holds_memAt {r : Register} :
    Holds m (.memAt r) v ↔ ∃ x : Nat, (m.regs.get r).toInt = x ∧ m.ram[x]? = some v := by
  constructor
  · intro h
    cases h with
    | memAt ha hv => exact ⟨_, ha, hv⟩
  · rintro ⟨x, ha, hv⟩
    exact .memAt ha hv

end Source

namespace Sink

variable {m m' : Machine} {v : Int32}

@[simp] theorem writes_discard : Writes m v .discard m' ↔ m' = m := by
  constructor
  · rintro ⟨⟩
    rfl
  · rintro rfl
    exact .discard

@[simp] theorem writes_reg {r : Register} :
    Writes m v (.reg r) m' ↔ m' = { m with regs := m.regs.set r v } := by
  constructor
  · rintro ⟨⟩
    rfl
  · rintro rfl
    exact .reg r

@[simp] theorem writes_mem {a : Int32} :
    Writes m v (.mem a) m' ↔
      ∃ x : Nat, a.toInt = x ∧ ∃ hx : x < m.ram.size, m' = { m with ram := m.ram.set x v hx } := by
  constructor
  · intro h
    cases h with
    | mem ha hx => exact ⟨_, ha, hx, rfl⟩
  · rintro ⟨x, ha, hx, rfl⟩
    exact .mem ha hx

@[simp] theorem writes_memAt {r : Register} :
    Writes m v (.memAt r) m' ↔
      ∃ x : Nat, (m.regs.get r).toInt = x ∧
        ∃ hx : x < m.ram.size, m' = { m with ram := m.ram.set x v hx } := by
  constructor
  · intro h
    cases h with
    | memAt ha hx => exact ⟨_, ha, hx, rfl⟩
  · rintro ⟨x, ha, hx, rfl⟩
    exact .memAt ha hx

end Sink

/-! ## Reading a line of input -/

/-- How the first line is cut from the input: through the first newline, or the whole input
when it has none. -/
theorem splitLine_eq_iff {input line rest : List UInt8} :
    splitLine input = (line, rest) ↔
      input = line ++ rest ∧ ((∃ l, line = l ++ [10] ∧ 10 ∉ l) ∨ (10 ∉ line ∧ rest = [])) := by
  unfold splitLine
  rw [List.span_eq_takeWhile_dropWhile]
  constructor
  · intro h
    have hsplit := List.takeWhile_append_dropWhile (p := fun x : UInt8 => decide (x ≠ 10)) (l := input)
    have hnot : 10 ∉ input.takeWhile (fun x => decide (x ≠ 10)) := fun hm => by
      simpa using List.mem_takeWhile_imp hm
    have hhead := List.head?_dropWhile_not (fun x : UInt8 => decide (x ≠ 10)) input
    rcases hd : input.dropWhile (fun x => decide (x ≠ 10)) with _ | ⟨nl, rest'⟩ <;>
      rw [hd] at h hsplit hhead <;> simp only [Prod.mk.injEq] at h <;> obtain ⟨rfl, rfl⟩ := h
    · exact ⟨by simpa using hsplit.symm, .inr ⟨hnot, rfl⟩⟩
    · have hnl : nl = 10 := by simpa using hhead
      subst hnl
      exact ⟨by simpa using hsplit.symm, .inl ⟨_, rfl, hnot⟩⟩
  · rintro ⟨rfl, ⟨l, rfl, hl⟩ | ⟨hl, rfl⟩⟩
    · have hpos : ∀ a ∈ l, decide (a ≠ (10 : UInt8)) = true := by
        intro a ha
        simp only [decide_eq_true_eq]
        rintro rfl
        exact hl ha
      rw [List.append_assoc, List.takeWhile_append_of_pos hpos, List.dropWhile_append_of_pos hpos]
      simp
    · have hpos : ∀ a ∈ line, decide (a ≠ (10 : UInt8)) = true := by
        intro a ha
        simp only [decide_eq_true_eq]
        rintro rfl
        exact hl ha
      rw [List.append_nil, List.takeWhile_eq_self_iff.2 hpos, List.dropWhile_eq_nil_iff.2 hpos]

/-- The first line is empty exactly when the input is. -/
theorem splitLine_fst_eq_nil_iff {input : List UInt8} : (splitLine input).1 = [] ↔ input = [] := by
  rcases hs : splitLine input with ⟨line, rest⟩
  obtain ⟨rfl, hshape⟩ := splitLine_eq_iff.1 hs
  rcases hshape with ⟨l, rfl, -⟩ | ⟨-, rfl⟩ <;> simp

/-- `in` reads exactly the number `LineHolds` describes. -/
theorem readNumber_eq_ok_iff {input rest : List UInt8} {v : Int32} :
    readNumber input = .ok (v, rest) ↔ LineHolds input v rest := by
  rcases hs : splitLine input with ⟨line, rest'⟩
  obtain ⟨hin, hshape⟩ := splitLine_eq_iff.1 hs
  have hholds : LineHolds input v rest ↔ line ≠ [] ∧ rest' = rest ∧
      ∃ cs, Text.decode line = .ok cs ∧ Text.parseInt32? (Text.trim cs) = some v := by
    constructor
    · rintro ⟨line₁, cs, hin₁, hne, hshape₁, hd, hp⟩
      have hs₁ := splitLine_eq_iff.2 ⟨hin₁, hshape₁⟩
      rw [hs, Prod.mk.injEq] at hs₁
      obtain ⟨rfl, rfl⟩ := hs₁
      exact ⟨hne, rfl, cs, hd, hp⟩
    · rintro ⟨hne, rfl, cs, hd, hp⟩
      exact ⟨line, cs, hin, hne, hshape, hd, hp⟩
  have hempty : input.isEmpty = true ↔ line = [] := by
    rw [List.isEmpty_iff, ← splitLine_fst_eq_nil_iff, hs]
  rw [hholds, readNumber, hs]
  by_cases hne : line = []
  · simp [hempty.2 hne, hne]
  · rw [if_neg (mt hempty.1 hne)]
    rcases hd : Text.decode line with e | cs
    · simp [hd]
    · rcases hp : Text.parseInt32? (Text.trim cs) with _ | w
      · simp [hd, hp]
      · simp [hd, hp, hne, and_comm]

/-- Why `in` finds no number: no input is left, its line is not UTF-8, or the line, trimmed,
is no 32-bit integer. -/
theorem readNumber_eq_error_iff {input : List UInt8} {e : InputError} :
    readNumber input = .error e ↔
      (input = [] ∧ e = .endOfInput) ∨
      (∃ line rest u, splitLine input = (line, rest) ∧ line ≠ [] ∧ Text.decode line = .error u ∧
        e = .notUtf8) ∨
      (∃ line rest cs, splitLine input = (line, rest) ∧ line ≠ [] ∧ Text.decode line = .ok cs ∧
        Text.parseInt32? (Text.trim cs) = none ∧ e = .notInteger (String.ofList (Text.trim cs))) := by
  rcases hs : splitLine input with ⟨line, rest⟩
  have hempty : input = [] ↔ line = [] := by
    rw [← splitLine_fst_eq_nil_iff, hs]
  unfold readNumber
  rw [hs]
  by_cases hne : line = []
  · simp [hempty.2 hne, hne, eq_comm]
  · have hni : input ≠ [] := mt hempty.1 hne
    rw [if_neg (by simpa using hni)]
    rcases hd : Text.decode line with u | cs
    · simp [hni, hne, hd, eq_comm]
    · rcases hp : Text.parseInt32? (Text.trim cs) with _ | w
      · simp [hni, hne, hd, hp, eq_comm]
      · simp [hni, hne, hd, hp]

/-! ## The operations of a step, as the rules see them -/

namespace Exec

variable {m m' : Machine}

theorem run_load_eq_ok_iff {src : Source} {v : Int32} :
    (load src).run m = .ok v m' ↔ src.Holds m v ∧ m' = m := by
  cases src with
  | imm w => simp [load, eq_comm]
  | reg r => simp [load, eq_comm]
  | mem a =>
    rw [Source.holds_mem, ← cell_getD_iff]
    by_cases h : 0 ≤ a.toInt ∧ a.toInt < m.ram.size <;> simp [load, h, eq_comm]
  | memAt r =>
    rw [Source.holds_memAt, ← cell_getD_iff]
    by_cases h : 0 ≤ (m.regs.get r).toInt ∧ (m.regs.get r).toInt < m.ram.size <;>
      simp [load, h, eq_comm]

theorem run_store_eq_ok_iff {v : Int32} {dst : Sink} :
    (store v dst).run m = .ok () m' ↔ dst.Writes m v m' := by
  cases dst with
  | discard => simp [store, eq_comm]
  | reg r => simp [store, eq_comm]
  | mem a =>
    rw [Sink.writes_mem, ← cell_set_iff]
    by_cases h : 0 ≤ a.toInt ∧ a.toInt < m.ram.size <;> simp [store, h]
  | memAt r =>
    rw [Sink.writes_memAt, ← cell_set_iff]
    by_cases h : 0 ≤ (m.regs.get r).toInt ∧ (m.regs.get r).toInt < m.ram.size <;>
      simp [store, h]

theorem run_jumpTo_eq_ok_iff {code : Array UInt8} {t : Int32} :
    (jumpTo code t).run m = .ok () m' ↔
      ∃ x : Nat, t.toInt = x ∧ x < code.size ∧ m' = { m with ip := x } := by
  rw [run_jumpTo]
  constructor
  · intro h
    split_ifs at h with ht
    obtain ⟨x, hx, hs⟩ := inside_iff.1 ht
    cases h
    exact ⟨x, hx, hs, by rw [hx, Int.toNat_natCast]⟩
  · rintro ⟨x, hx, hs, rfl⟩
    rw [if_pos (inside_iff.2 ⟨x, hx, hs⟩), hx, Int.toNat_natCast]

end Exec

/-! ## Carrying out an instruction by the table -/

theorem Stack.peek_eq_ok_iff {s : Stack} {v : Int32} :
    s.peek = .ok v ↔ ∃ rest, s.values = v :: rest := by
  unfold Stack.peek
  split <;> simp_all

theorem Stack.peek_eq_error_iff {s : Stack} {e : StackError} :
    s.peek = .error e ↔ s.values = [] ∧ e = ⟨1, 0⟩ := by
  unfold Stack.peek
  split <;> simp_all [eq_comm]

theorem Stack.popPair_eq_error_iff {s : Stack} {e : StackError} :
    s.popPair = .error e ↔ s.size < 2 ∧ e = ⟨2, s.size⟩ := by
  have hsize := s.size_eq
  unfold Stack.popPair
  split
  · rename_i b a rest hv
    simp [hsize, hv]
  · rename_i h
    rcases hv : s.values with _ | ⟨b, _ | ⟨a, rest⟩⟩
    · simp [hsize, hv, eq_comm]
    · simp [hsize, hv, eq_comm]
    · exact absurd hv (h b a rest)

theorem Stack.ofValues_values (s : Stack) : Stack.ofValues s.values = s := by
  ext
  rfl

theorem Stack.popPair_of_values {s : Stack} {a b : Int32} {rest : List Int32}
    (h : s.values = b :: a :: rest) : s.popPair = .ok ((a, b), .ofValues rest) :=
  Stack.popPair_eq_ok.2 h

theorem Stack.push_ofValues (v : Int32) (rest : List Int32) :
    (Stack.ofValues rest).push v = .ofValues (v :: rest) := by
  ext
  rfl

theorem Sink.Writes.stack_eq {m m' : Machine} {v : Int32} {dst : Sink} (h : dst.Writes m v m') :
    m'.stack = m.stack := by
  cases h <;> rfl

section Table

variable {code : Array UInt8} {m m' : Machine} {f : Flow}

theorem executes_of_execute {i : Instruction} (h : (Exec.execute code i).run m = .ok f m') :
    Executes code m i f m' := by
  cases i with
  | halt =>
    simp [Exec.execute] at h
    obtain ⟨rfl, rfl⟩ := h
    exact .halt
  | push src =>
    rcases hl : (Exec.load src).run m with ⟨v, m1⟩ | ⟨e, m1⟩ <;> simp [Exec.execute, hl] at h
    obtain ⟨hv, rfl⟩ := Exec.run_load_eq_ok_iff.1 hl
    obtain ⟨rfl, rfl⟩ := h
    exact .push hv
  | pop dst =>
    rcases hp : m.stack.peek with e | v
    · simp [Exec.execute, hp] at h
    obtain ⟨rest, hv⟩ := Stack.peek_eq_ok_iff.1 hp
    rcases hs : (Exec.store v dst).run m with ⟨_, m1⟩ | ⟨e, m1⟩
    · have hw := Exec.run_store_eq_ok_iff.1 hs
      have hv1 : m1.stack.values = v :: rest := by rw [hw.stack_eq, hv]
      simp [Exec.execute, hp, hs, Stack.pop_of_values hv1] at h
      obtain ⟨rfl, rfl⟩ := h
      exact .pop hv hw
    · simp [Exec.execute, hp, hs] at h
  | arith op =>
    rcases hpp : m.stack.popPair with e | ⟨⟨a, b⟩, s⟩
    · simp [Exec.execute, hpp] at h
    have hv := Stack.popPair_eq_ok.1 hpp
    rcases hr : op.apply a b with _ | r <;> simp [Exec.execute, hpp, hr] at h
    obtain ⟨rfl, rfl⟩ := h
    obtain ⟨hdiv, hres⟩ := Arith.apply_eq_some_iff.1 hr
    rw [← Stack.ofValues_values s, Stack.push_ofValues]
    exact .arith hv hdiv hres
  | print =>
    rcases hp : m.stack.peek with e | v <;> simp [Exec.execute, hp] at h
    obtain ⟨rest, hv⟩ := Stack.peek_eq_ok_iff.1 hp
    obtain ⟨rfl, rfl⟩ := h
    exact .print hv
  | read =>
    rcases hr : readNumber m.input with e | ⟨v, rest⟩ <;> simp [Exec.execute, hr] at h
    obtain ⟨rfl, rfl⟩ := h
    exact .read (readNumber_eq_ok_iff.1 hr)
  | jump t =>
    rcases hj : (Exec.jumpTo code t).run m with ⟨_, m1⟩ | ⟨e, m1⟩ <;>
      simp [Exec.execute, hj, -Exec.run_jumpTo] at h
    obtain ⟨x, hx, hs, rfl⟩ := Exec.run_jumpTo_eq_ok_iff.1 hj
    obtain ⟨rfl, rfl⟩ := h
    exact .jump hx hs
  | branch c t =>
    rcases hpp : m.stack.popPair with e | ⟨⟨a, b⟩, s⟩
    · simp [Exec.execute, hpp] at h
    have hv := Stack.popPair_eq_ok.1 hpp
    by_cases hc : c.holds a b = true
    · rcases hj : (Exec.jumpTo code t).run { m with stack := s } with ⟨_, m1⟩ | ⟨e, m1⟩ <;>
        simp [Exec.execute, hpp, hc, hj, -Exec.run_jumpTo] at h
      obtain ⟨x, hx, hxs, rfl⟩ := Exec.run_jumpTo_eq_ok_iff.1 hj
      obtain ⟨rfl, rfl⟩ := h
      rw [← Stack.ofValues_values s]
      exact .branchTaken hv (Comparison.holds_eq_true_iff.1 hc) hx hxs
    · simp [Exec.execute, hpp, hc] at h
      obtain ⟨rfl, rfl⟩ := h
      rw [← Stack.ofValues_values s]
      exact .branchNotTaken hv (mt Comparison.holds_eq_true_iff.2 hc)
  | call t =>
    rcases hj : (Exec.jumpTo code t).run m with ⟨_, m1⟩ | ⟨e, m1⟩ <;>
      simp [Exec.execute, hj, -Exec.run_jumpTo] at h
    obtain ⟨x, hx, hs, rfl⟩ := Exec.run_jumpTo_eq_ok_iff.1 hj
    obtain ⟨rfl, rfl⟩ := h
    exact .call hx hs
  | ret =>
    rcases hc : m.calls with _ | ⟨back, rest⟩ <;> simp [Exec.execute, hc] at h
    obtain ⟨rfl, rfl⟩ := h
    exact .ret hc

theorem execute_of_executes {i : Instruction} (h : Executes code m i f m') :
    (Exec.execute code i).run m = .ok f m' := by
  cases h with
  | halt => rfl
  | push hv =>
    have hl := Exec.run_load_eq_ok_iff.2 ⟨hv, rfl⟩
    simp [Exec.execute, hl]
  | @pop dst v rest m1 hv hw =>
    have hs := Exec.run_store_eq_ok_iff.2 hw
    have hv1 : m1.stack.values = v :: rest := by rw [hw.stack_eq, hv]
    simp [Exec.execute, Stack.peek, hv, hs, Stack.pop_of_values hv1]
  | arith hv hdiv hres =>
    have hr := Arith.apply_eq_some_iff.2 ⟨hdiv, hres⟩
    simp [Exec.execute, Stack.popPair_of_values hv, hr, Stack.push_ofValues]
  | print hv => simp [Exec.execute, Stack.peek, hv]
  | read hl => simp [Exec.execute, readNumber_eq_ok_iff.2 hl]
  | jump hx hs =>
    have hj := Exec.run_jumpTo_eq_ok_iff (m := m) |>.2 ⟨_, hx, hs, rfl⟩
    simp [Exec.execute, hj, -Exec.run_jumpTo]
  | @branchTaken c t a b rest x hv hc hx hs =>
    have hj := Exec.run_jumpTo_eq_ok_iff (m := { m with stack := .ofValues rest }) |>.2
      ⟨_, hx, hs, rfl⟩
    simp [Exec.execute, Stack.popPair_of_values hv, Comparison.holds_eq_true_iff.2 hc, hj,
      -Exec.run_jumpTo]
  | @branchNotTaken c t a b rest hv hc =>
    have hc' : c.holds a b = false := by
      simpa using mt Comparison.holds_eq_true_iff.1 hc
    simp [Exec.execute, Stack.popPair_of_values hv, hc']
  | call hx hs =>
    have hj := Exec.run_jumpTo_eq_ok_iff (m := m) |>.2 ⟨_, hx, hs, rfl⟩
    simp [Exec.execute, hj, -Exec.run_jumpTo]
  | ret hc => simp [Exec.execute, hc]

theorem execute_eq_ok_iff {i : Instruction} :
    (Exec.execute code i).run m = .ok f m' ↔ Executes code m i f m' :=
  ⟨executes_of_execute, execute_of_executes⟩

/-- A step at an instruction that decodes moves `ip` past it and carries it out. -/
theorem step_of_decodeAt {i : Instruction} (hi : decodeAt code m.ip = .ok i) :
    (step code).run m = (Exec.execute code i).run { m with ip := m.ip + i.size } := by
  have hip : m.ip < code.size := by
    have := decodeAt_fits hi
    have := i.size_pos
    omega
  simp [step, hip, hi]

/-- A step that completes had an instruction to decode at `ip`. -/
theorem decodeAt_of_step_ok (h : (step code).run m = .ok f m') : ∃ i, decodeAt code m.ip = .ok i := by
  by_cases hip : m.ip < code.size
  · rcases hd : decodeAt code m.ip with e | i
    · simp [step, hip, hd] at h
    · exact ⟨i, rfl⟩
  · simp [step, hip] at h

/-- A step that completes decoded an instruction at `ip` and carried it out by the table. -/
theorem executes_of_step_ok (h : (step code).run m = .ok f m') :
    ∃ i, decodeAt code m.ip = .ok i ∧ Executes code { m with ip := m.ip + i.size } i f m' := by
  obtain ⟨i, hi⟩ := decodeAt_of_step_ok h
  exact ⟨i, hi, execute_eq_ok_iff.1 ((step_of_decodeAt hi).symm.trans h)⟩

end Table

/-! ## Failing by the table -/

theorem Machine.with_input_self (m : Machine) {input : List UInt8} (h : input = m.input) :
    { m with input } = m := by
  subst h
  rfl

section Failures

variable {code : Array UInt8} {m m' : Machine} {e : RunError}

theorem fails_of_execute {i : Instruction} (h : (Exec.execute code i).run m = .error e m') :
    Fails code m i e m' := by
  cases i with
  | halt => simp [Exec.execute] at h
  | push src =>
    cases src with
    | imm v => simp [Exec.execute, Exec.load] at h
    | reg r => simp [Exec.execute, Exec.load] at h
    | mem a =>
      by_cases hc : 0 ≤ a.toInt ∧ a.toInt < m.ram.size <;> simp [Exec.execute, Exec.load, hc] at h
      obtain ⟨rfl, rfl⟩ := h
      exact .pushMem (outside_iff.1 hc)
    | memAt r =>
      by_cases hc : 0 ≤ (m.regs.get r).toInt ∧ (m.regs.get r).toInt < m.ram.size <;>
        simp [Exec.execute, Exec.load, hc] at h
      obtain ⟨rfl, rfl⟩ := h
      exact .pushMemAt (outside_iff.1 hc)
  | pop dst =>
    rcases hp : m.stack.peek with e1 | v
    · simp [Exec.execute, hp] at h
      obtain ⟨rfl, rfl⟩ := h
      obtain ⟨hv, rfl⟩ := Stack.peek_eq_error_iff.1 hp
      exact .popEmpty hv
    obtain ⟨rest, hv⟩ := Stack.peek_eq_ok_iff.1 hp
    cases dst with
    | discard => simp [Exec.execute, Exec.store, hp, Stack.pop_of_values hv] at h
    | reg r => simp [Exec.execute, Exec.store, hp, Stack.pop_of_values hv] at h
    | mem a =>
      by_cases hc : 0 ≤ a.toInt ∧ a.toInt < m.ram.size
      · simp [Exec.execute, Exec.store, hp, hc, Stack.pop_of_values hv] at h
      · simp [Exec.execute, Exec.store, hp, hc] at h
        obtain ⟨rfl, rfl⟩ := h
        exact .popMem hv (outside_iff.1 hc)
    | memAt r =>
      by_cases hc : 0 ≤ (m.regs.get r).toInt ∧ (m.regs.get r).toInt < m.ram.size
      · simp [Exec.execute, Exec.store, hp, hc, Stack.pop_of_values hv] at h
      · simp [Exec.execute, Exec.store, hp, hc] at h
        obtain ⟨rfl, rfl⟩ := h
        exact .popMemAt hv (outside_iff.1 hc)
  | arith op =>
    rcases hpp : m.stack.popPair with e1 | ⟨⟨a, b⟩, s⟩
    · simp [Exec.execute, hpp] at h
      obtain ⟨rfl, rfl⟩ := h
      obtain ⟨hs, rfl⟩ := Stack.popPair_eq_error_iff.1 hpp
      exact .arithShort hs
    have hv := Stack.popPair_eq_ok.1 hpp
    rcases hr : op.apply a b with _ | r <;> simp [Exec.execute, hpp, hr] at h
    obtain ⟨rfl, rfl⟩ := h
    -- only a division by zero has no result
    obtain ⟨rfl, rfl⟩ : op = .div ∧ b = 0 := by
      cases op <;> simp_all [Arith.apply]
    rw [Machine.with_stack_self m (Stack.push_push_of_values hv)]
    exact .divByZero hv
  | print =>
    rcases hp : m.stack.peek with e1 | v <;> simp [Exec.execute, hp] at h
    obtain ⟨rfl, rfl⟩ := h
    obtain ⟨hv, rfl⟩ := Stack.peek_eq_error_iff.1 hp
    exact .printEmpty hv
  | read =>
    rcases hr : readNumber m.input with e1 | ⟨v, rest⟩ <;> simp [Exec.execute, hr] at h
    obtain ⟨rfl, rfl⟩ := h
    rcases readNumber_eq_error_iff.1 hr with ⟨hin, rfl⟩ | ⟨line, rest, u, hs, hne, hd, rfl⟩ |
      ⟨line, rest, cs, hs, hne, hd, hp, rfl⟩
    · rw [hin, Machine.with_input_self m (by simp [hin, splitLine])]
      exact .readEnd hin
    · rw [hs]
      exact .readNotUtf8 hs hne hd
    · rw [hs]
      exact .readNotInteger hs hne hd hp
  | jump t =>
    by_cases ht : 0 ≤ t.toInt ∧ t.toInt < code.size <;> simp [Exec.execute, ht] at h
    obtain ⟨rfl, rfl⟩ := h
    exact .jump (outside_iff.1 ht)
  | branch c t =>
    rcases hpp : m.stack.popPair with e1 | ⟨⟨a, b⟩, s⟩
    · simp [Exec.execute, hpp] at h
      obtain ⟨rfl, rfl⟩ := h
      obtain ⟨hs, rfl⟩ := Stack.popPair_eq_error_iff.1 hpp
      exact .branchShort hs
    have hv := Stack.popPair_eq_ok.1 hpp
    by_cases hc : c.holds a b = true <;> by_cases ht : 0 ≤ t.toInt ∧ t.toInt < code.size <;>
      simp [Exec.execute, hpp, hc, ht] at h
    obtain ⟨rfl, rfl⟩ := h
    rw [← Stack.ofValues_values s]
    exact .branchEscapes hv (Comparison.holds_eq_true_iff.1 hc) (outside_iff.1 ht)
  | call t =>
    by_cases ht : 0 ≤ t.toInt ∧ t.toInt < code.size <;> simp [Exec.execute, ht] at h
    obtain ⟨rfl, rfl⟩ := h
    exact .call (outside_iff.1 ht)
  | ret =>
    rcases hc : m.calls with _ | ⟨back, rest⟩ <;> simp [Exec.execute, hc] at h
    obtain ⟨rfl, rfl⟩ := h
    exact .ret hc

theorem execute_of_fails {i : Instruction} (h : Fails code m i e m') :
    (Exec.execute code i).run m = .error e m' := by
  cases h with
  | pushMem ha => simp [Exec.execute, Exec.load, outside_iff.2 ha]
  | pushMemAt ha => simp [Exec.execute, Exec.load, outside_iff.2 ha]
  | popEmpty hv => simp [Exec.execute, Stack.peek, hv]
  | popMem hv ha => simp [Exec.execute, Exec.store, Stack.peek, hv, outside_iff.2 ha]
  | popMemAt hv ha => simp [Exec.execute, Exec.store, Stack.peek, hv, outside_iff.2 ha]
  | arithShort hs => simp [Exec.execute, Stack.popPair_eq_error_iff.2 ⟨hs, rfl⟩]
  | @divByZero a rest hv =>
    have hback : ((Stack.ofValues rest).push a).push 0 = m.stack := Stack.push_push_of_values hv
    simp [Exec.execute, Stack.popPair_of_values hv, Arith.apply, hback, Machine.with_stack_self]
  | printEmpty hv => simp [Exec.execute, Stack.peek, hv]
  | readEnd hin =>
    simp [Exec.execute, readNumber, hin, splitLine, Machine.with_input_self m hin.symm]
  | readNotUtf8 hs hne hd =>
    have hr := readNumber_eq_error_iff.2 (.inr (.inl ⟨_, _, _, hs, hne, hd, rfl⟩))
    simp [Exec.execute, hr, hs]
  | readNotInteger hs hne hd hp =>
    have hr := readNumber_eq_error_iff.2 (.inr (.inr ⟨_, _, _, hs, hne, hd, hp, rfl⟩))
    simp [Exec.execute, hr, hs]
  | jump ht => simp [Exec.execute, outside_iff.2 ht]
  | branchShort hs => simp [Exec.execute, Stack.popPair_eq_error_iff.2 ⟨hs, rfl⟩]
  | branchEscapes hv hc ht =>
    simp [Exec.execute, Stack.popPair_of_values hv, Comparison.holds_eq_true_iff.2 hc,
      outside_iff.2 ht]
  | call ht => simp [Exec.execute, outside_iff.2 ht]
  | ret hc => simp [Exec.execute, hc]

theorem execute_eq_error_iff {i : Instruction} :
    (Exec.execute code i).run m = .error e m' ↔ Fails code m i e m' :=
  ⟨fails_of_execute, execute_of_fails⟩

end Failures

/-- Printing a value adds its decimal text and a newline to what the machine has printed. -/
theorem Machine.printedText_push (m : Machine) (v : Int32) :
    { m with printed := m.printed.push v }.printedText = m.printedText ++ (toString v.toInt ++ "\n") := by
  simp [Machine.printedText, String.join_append]

/-- A step implements the instruction table, with its failures. Where `ip` stands on an
instruction `i` that decodes, the step completes with flow `f`, leaving `m'`, exactly when
`Executes` has a rule that carries `i` out on the machine with `ip` moved past `i` and leaves
`m'` with flow `f`; and it fails with `e`, leaving `m'`, exactly when `Fails` has a rule for the
check that fails there, naming `e` and leaving `m'`. What `out` adds to the printed text is
the number in decimal and a newline. -/
theorem step_follows_table {code : Array UInt8} {m : Machine} {i : Instruction}
    (hi : decodeAt code m.ip = .ok i) :
    (∀ f m', (step code).run m = .ok f m' ↔ Executes code { m with ip := m.ip + i.size } i f m') ∧
      (∀ e m', (step code).run m = .error e m' ↔
        Fails code { m with ip := m.ip + i.size } i e m') ∧
      ∀ v : Int32, { m with printed := m.printed.push v }.printedText =
        m.printedText ++ (toString v.toInt ++ "\n") := by
  refine ⟨fun f m' => ?_, fun e m' => ?_, Machine.printedText_push m⟩
  · rw [step_of_decodeAt hi]
    exact execute_eq_ok_iff
  · rw [step_of_decodeAt hi]
    exact execute_eq_error_iff

/-- Dividing -7 by zero: the division instruction decodes at offset 0. -/
theorem step_follows_table_div :
    let code := (Instruction.arith .div).encode.toArray
    let m : Machine := { Machine.boot 0 [] with stack := .ofValues [0, -7] }
    decodeAt code m.ip = .ok (.arith .div) ∧
      (∀ f m', (step code).run m = .ok f m' ↔
        Executes code { m with ip := m.ip + (Instruction.arith .div).size } (.arith .div) f m') ∧
      (∀ e m', (step code).run m = .error e m' ↔
        Fails code { m with ip := m.ip + (Instruction.arith .div).size } (.arith .div) e m') ∧
      ∀ v : Int32, { m with printed := m.printed.push v }.printedText =
        m.printedText ++ (toString v.toInt ++ "\n") := by
  intro code m
  have hi : decodeAt code m.ip = .ok (.arith .div) := by
    simp only [code, m]
    rfl
  exact ⟨hi, step_follows_table hi⟩

end StackMachine
