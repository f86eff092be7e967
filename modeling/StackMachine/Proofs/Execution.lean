import Mathlib
import StackMachine.Cpu.Step
import StackMachine.Proofs.Codec
/-!
# What a step does to the machine

Each operation of `Exec` gets one equation for what it does to a machine, so that later proofs
read a step through those and never unfold the operations again.

`execute_error`: an instruction that fails leaves the machine as it found it, with one
exception, a conditional jump taken to a target outside the code, which has already taken its
two values off the stack. `failed_step_frame` lifts that to a whole step: a failed step keeps
registers, memory and return addresses, moves `ip` only past an instruction that decoded, and
keeps the operand stack except in that one case.
-/

namespace StackMachine

/-- The machine a computation leaves, whether it went on or failed. -/
def Exec.after {α : Type} : EStateM.Result RunError Machine α → Machine
  | .ok _ m => m
  | .error _ m => m

@[simp] theorem Exec.after_ok {α : Type} (a : α) (m : Machine) :
    Exec.after (.ok a m : EStateM.Result RunError Machine α) = m := rfl

@[simp] theorem Exec.after_error {α : Type} (e : RunError) (m : Machine) :
    Exec.after (.error e m : EStateM.Result RunError Machine α) = m := rfl

theorem Machine.with_stack_self (m : Machine) {s : Stack} (h : s = m.stack) :
    { m with stack := s } = m := by
  subst h
  rfl

/-- The machine after `n` steps of `code` from `m`, each step taken from where the one before
left the machine, whether that one went on, halted or failed. -/
def afterSteps (code : Array UInt8) (m : Machine) : Nat → Machine
  | 0 => m
  | n + 1 => Exec.after ((step code).run (afterSteps code m n))

@[simp] theorem afterSteps_zero (code : Array UInt8) (m : Machine) : afterSteps code m 0 = m := rfl

@[simp] theorem afterSteps_succ (code : Array UInt8) (m : Machine) (n : Nat) :
    afterSteps code m (n + 1) = Exec.after ((step code).run (afterSteps code m n)) := rfl

/-! ## Stack operations -/

namespace Stack

theorem popPair_eq_ok {s : Stack} {a b : Int32} {s' : Stack} :
    s.popPair = .ok ((a, b), s') ↔ s.values = b :: a :: s'.values := by
  unfold popPair
  split
  · rename_i b' a' rest h
    rw [h]
    constructor
    · intro heq
      simp only [Except.ok.injEq, Prod.mk.injEq] at heq
      obtain ⟨⟨rfl, rfl⟩, rfl⟩ := heq
      rfl
    · intro heq
      simp only [List.cons.injEq] at heq
      obtain ⟨rfl, rfl, hrest⟩ := heq
      simp only [Except.ok.injEq, Prod.mk.injEq, true_and]
      exact Stack.ext hrest
  · rename_i h
    constructor
    · intro heq
      cases heq
    · intro heq
      exact absurd heq (h _ _ _)

theorem pop_of_values {s : Stack} {v : Int32} {rest : List Int32} (h : s.values = v :: rest) :
    s.pop = .ok (v, ofValues rest) := by
  simp [pop, h]

/-- Pushing back the two values a pair pop took gives the stack back. -/
theorem push_push_of_values {s s' : Stack} {a b : Int32} (h : s.values = b :: a :: s'.values) :
    (s'.push a).push b = s := by
  ext
  simp [h]

end Stack

/-! ## One equation per operation -/

namespace Exec

variable (m : Machine)

@[simp] theorem run_throw {α : Type} (e : RunError) :
    EStateM.run (throw e : Exec α) m = .error e m := rfl

@[simp] theorem run_onStack {α : Type} (f : Stack → Except StackError (α × Stack)) :
    (onStack f).run m = match f m.stack with
      | .ok (a, s) => .ok a { m with stack := s }
      | .error e => .error (.stack e) m := by
  rcases h : f m.stack with e | ⟨a, s⟩ <;> simp [onStack, h]

@[simp] theorem run_push (v : Int32) :
    (push v).run m = .ok () { m with stack := m.stack.push v } := rfl

@[simp] theorem run_peek :
    peek.run m = match m.stack.peek with
      | .ok v => .ok v m
      | .error e => .error (.stack e) m := by
  rcases h : m.stack.peek with e | v <;> simp [peek, h]

@[simp] theorem run_cell (addr : Int32) :
    (cell addr).run m = if 0 ≤ addr.toInt ∧ addr.toInt < m.ram.size then .ok addr.toInt.toNat m
      else .error (.memoryOutOfBounds addr) m := by
  by_cases h : 0 ≤ addr.toInt ∧ addr.toInt < m.ram.size <;> simp [cell, h]

@[simp] theorem run_jumpTo (code : Array UInt8) (t : Int32) :
    (jumpTo code t).run m = if 0 ≤ t.toInt ∧ t.toInt < code.size then
      .ok () { m with ip := t.toInt.toNat } else .error (.jumpOutOfBounds t) m := by
  by_cases h : 0 ≤ t.toInt ∧ t.toInt < code.size <;> simp [jumpTo, h]

/-- A number read from the input leaves the input after its line. -/
theorem readNumber_rest {input rest : List UInt8} {v : Int32}
    (h : readNumber input = .ok (v, rest)) : rest = (splitLine input).2 := by
  unfold readNumber at h
  split at h
  · cases h
  · rcases hs : splitLine input with ⟨line, rest'⟩
    simp only [hs] at h ⊢
    split at h
    · cases h
    · split at h
      · cases h
        rfl
      · cases h

@[simp] theorem run_readInput :
    readInput.run m = match readNumber m.input with
      | .ok (v, rest) => .ok v { m with input := rest }
      | .error e => .error (.input e) { m with input := (splitLine m.input).2 } := by
  rcases h : readNumber m.input with e | ⟨v, rest⟩
  · simp [readInput, h]
  · simp [readInput, h, readNumber_rest h]

/-- Loading a value reads the machine and never changes it. -/
theorem after_load (src : Source) : after ((load src).run m) = m := by
  cases src with
  | imm v => rfl
  | reg r => rfl
  | mem a =>
    simp only [load, EStateM.run_bind, run_cell]
    by_cases h : 0 ≤ a.toInt ∧ a.toInt < m.ram.size <;> simp [h]
  | memAt r =>
    simp only [load, EStateM.run_bind, EStateM.run_get, run_cell]
    by_cases h : 0 ≤ (m.regs.get r).toInt ∧ (m.regs.get r).toInt < m.ram.size <;> simp [h]

/-- A load fails only on an address outside the memory. -/
theorem load_error {src : Source} {e : RunError} {m' : Machine}
    (h : (load src).run m = .error e m') : ∃ a, e = .memoryOutOfBounds a := by
  cases src with
  | imm v => simp [load] at h
  | reg r => simp [load] at h
  | mem a =>
    by_cases hc : 0 ≤ a.toInt ∧ a.toInt < m.ram.size <;> simp [load, hc] at h
    exact ⟨a, h.1.symm⟩
  | memAt r =>
    by_cases hc : 0 ≤ (m.regs.get r).toInt ∧ (m.regs.get r).toInt < m.ram.size <;>
      simp [load, hc] at h
    exact ⟨_, h.1.symm⟩

/-- A store that fails has changed nothing, and fails only on an address outside the
memory. -/
theorem store_error {v : Int32} {dst : Sink} {e : RunError} {m' : Machine}
    (h : (store v dst).run m = .error e m') : m' = m ∧ ∃ a, e = .memoryOutOfBounds a := by
  cases dst with
  | discard => simp [store] at h
  | reg r => simp [store] at h
  | mem a =>
    by_cases hc : 0 ≤ a.toInt ∧ a.toInt < m.ram.size <;> simp [store, hc] at h
    exact ⟨h.2.symm, a, h.1.symm⟩
  | memAt r =>
    by_cases hc : 0 ≤ (m.regs.get r).toInt ∧ (m.regs.get r).toInt < m.ram.size <;>
      simp [store, hc] at h
    exact ⟨h.2.symm, _, h.1.symm⟩

/-- A store that succeeds has changed only the registers and the memory. -/
theorem store_ok {v : Int32} {dst : Sink} {m' : Machine} (h : (store v dst).run m = .ok () m') :
    ∃ regs ram, m' = { m with regs, ram } := by
  cases dst with
  | discard =>
    simp [store] at h
    exact ⟨m.regs, m.ram, by rw [h]⟩
  | reg r =>
    simp [store] at h
    exact ⟨_, m.ram, h.symm⟩
  | mem a =>
    by_cases hc : 0 ≤ a.toInt ∧ a.toInt < m.ram.size <;> simp [store, hc] at h
    exact ⟨m.regs, _, h.symm⟩
  | memAt r =>
    by_cases hc : 0 ≤ (m.regs.get r).toInt ∧ (m.regs.get r).toInt < m.ram.size <;>
      simp [store, hc] at h
    exact ⟨m.regs, _, h.symm⟩

end Exec

/-! ## Failed instructions -/

/-- A conditional jump whose test holds of the two values on top of the stack and whose target
lies outside the code: the one instruction that fails after it has changed the machine. -/
def EscapingBranch (code : Array UInt8) (i : Instruction) (m : Machine) : Prop :=
  ∃ c t a b rest, i = .branch c t ∧ m.stack.values = b :: a :: rest ∧ c.holds a b = true ∧
    ¬ (0 ≤ t.toInt ∧ t.toInt < code.size)

theorem not_escapingBranch {code : Array UInt8} {i : Instruction} {m : Machine}
    (hi : ∀ c t, i ≠ .branch c t) : ¬ EscapingBranch code i m := by
  rintro ⟨c, t, -, -, -, rfl, -⟩
  exact hi c t rfl

/-- What a failed instruction leaves: the machine as it was, except that an escaping branch has
taken its two values and a failed `in` has used up the line it read. The error is never one of
fetching. -/
def FailedAs (code : Array UInt8) (i : Instruction) (m : Machine) (e : RunError) (m' : Machine) :
    Prop :=
  e ≠ .unexpectedEnd ∧ (∀ d, e ≠ .decode d) ∧
    (EscapingBranch code i m → m' = { m with stack := .ofValues (m.stack.values.drop 2) }) ∧
    (i = .read → m' = { m with input := (splitLine m.input).2 }) ∧
    (¬ EscapingBranch code i m → i ≠ .read → m' = m)

theorem failedAs_of_kept {code : Array UInt8} {i : Instruction} {m : Machine} {e : RunError}
    (hi : ∀ c t, i ≠ .branch c t) (hr : i ≠ .read) (he : e ≠ .unexpectedEnd ∧ ∀ d, e ≠ .decode d) :
    FailedAs code i m e m :=
  ⟨he.1, he.2, fun hb => absurd hb (not_escapingBranch hi), fun h => absurd h hr, fun _ _ => rfl⟩

theorem execute_error {code : Array UInt8} {i : Instruction} {m m' : Machine} {e : RunError}
    (h : (Exec.execute code i).run m = .error e m') : FailedAs code i m e m' := by
  cases i with
  | halt => simp [Exec.execute] at h
  | push src =>
    rcases hl : (Exec.load src).run m with ⟨v, m1⟩ | ⟨e1, m1⟩ <;> simp [Exec.execute, hl] at h
    obtain ⟨rfl, rfl⟩ := h
    have hm : m1 = m := by simpa [hl] using Exec.after_load m src
    obtain ⟨a, rfl⟩ := Exec.load_error m hl
    exact hm ▸ failedAs_of_kept (by simp) (by simp) (by simp)
  | pop dst =>
    rcases hp : m.stack.peek with e1 | v
    · simp [Exec.execute, hp] at h
      obtain ⟨rfl, rfl⟩ := h
      exact failedAs_of_kept (by simp) (by simp) (by simp)
    · rcases hs : (Exec.store v dst).run m with ⟨_, m1⟩ | ⟨e1, m1⟩
      · -- the value was on top, so removing it cannot fail
        obtain ⟨regs, ram, rfl⟩ := Exec.store_ok m hs
        have hv : m.stack.values = v :: m.stack.values.tail := by
          unfold Stack.peek at hp
          split at hp <;> simp_all
        simp [Exec.execute, hp, hs, Stack.pop_of_values hv] at h
      · simp [Exec.execute, hp, hs] at h
        obtain ⟨rfl, rfl⟩ := h
        obtain ⟨rfl, a, rfl⟩ := Exec.store_error m hs
        exact failedAs_of_kept (by simp) (by simp) (by simp)
  | arith op =>
    rcases hpp : m.stack.popPair with e1 | ⟨⟨a, b⟩, s⟩
    · simp [Exec.execute, hpp] at h
      obtain ⟨rfl, rfl⟩ := h
      exact failedAs_of_kept (by simp) (by simp) (by simp)
    · have hv := Stack.popPair_eq_ok.1 hpp
      rcases hr : op.apply a b with _ | r <;> simp [Exec.execute, hpp, hr] at h
      obtain ⟨rfl, rfl⟩ := h
      rw [Machine.with_stack_self m (Stack.push_push_of_values hv)]
      exact failedAs_of_kept (by simp) (by simp) (by simp)
  | print =>
    rcases hp : m.stack.peek with e1 | v <;> simp [Exec.execute, hp] at h
    obtain ⟨rfl, rfl⟩ := h
    exact failedAs_of_kept (by simp) (by simp) (by simp)
  | read =>
    rcases hr : readNumber m.input with e1 | ⟨v, rest⟩ <;> simp [Exec.execute, hr] at h
    obtain ⟨rfl, rfl⟩ := h
    exact ⟨by simp, by simp, fun hb => absurd hb (not_escapingBranch (by simp)), fun _ => rfl,
      fun _ h => absurd rfl h⟩
  | jump t =>
    by_cases ht : 0 ≤ t.toInt ∧ t.toInt < code.size <;> simp [Exec.execute, ht] at h
    obtain ⟨rfl, rfl⟩ := h
    exact failedAs_of_kept (by simp) (by simp) (by simp)
  | branch c t =>
    rcases hpp : m.stack.popPair with e1 | ⟨⟨a, b⟩, s⟩
    · simp [Exec.execute, hpp] at h
      obtain ⟨rfl, rfl⟩ := h
      have hnot : ¬ EscapingBranch code (.branch c t) m := by
        rintro ⟨c', t', a', b', rest, -, hv, -⟩
        simp [Stack.popPair, hv] at hpp
      exact ⟨by simp, by simp, fun hb => absurd hb hnot, fun h => absurd h (by simp),
        fun _ _ => rfl⟩
    · have hv := Stack.popPair_eq_ok.1 hpp
      by_cases hc : c.holds a b = true <;> by_cases ht : 0 ≤ t.toInt ∧ t.toInt < code.size <;>
        simp [Exec.execute, hpp, hc, ht] at h
      obtain ⟨rfl, rfl⟩ := h
      -- the test held and the target is outside: the two values are gone
      have hesc : EscapingBranch code (.branch c t) m := ⟨c, t, a, b, s.values, rfl, hv, hc, ht⟩
      have hs : s = .ofValues (m.stack.values.drop 2) := by
        ext
        simp [hv, Stack.ofValues]
      exact ⟨by simp, by simp, fun _ => by rw [hs], fun h => absurd h (by simp),
        fun hn => absurd hesc hn⟩
  | call t =>
    by_cases ht : 0 ≤ t.toInt ∧ t.toInt < code.size <;> simp [Exec.execute, ht] at h
    obtain ⟨rfl, rfl⟩ := h
    exact failedAs_of_kept (by simp) (by simp) (by simp)
  | ret =>
    rcases hc : m.calls with _ | ⟨back, rest⟩ <;> simp [Exec.execute, hc] at h
    obtain ⟨rfl, rfl⟩ := h
    exact failedAs_of_kept (by simp) (by simp) (by simp)

/-- A failed instruction leaves the machine as it was, or with two values fewer on the stack,
or with the input past its first line. -/
theorem FailedAs.cases {code : Array UInt8} {i : Instruction} {m m' : Machine} {e : RunError}
    (h : FailedAs code i m e m') :
    m' = { m with stack := .ofValues (m.stack.values.drop 2) } ∨
      m' = { m with input := (splitLine m.input).2 } ∨ m' = m := by
  obtain ⟨-, -, hesc, hread, hkeep⟩ := h
  by_cases hb : EscapingBranch code i m
  · exact .inl (hesc hb)
  · by_cases hr : i = .read
    · exact .inr (.inl (hread hr))
    · exact .inr (.inr (hkeep hb hr))

/-! ## Failed steps -/

/-- The instruction at `ip` is a branch that escapes the code. -/
def BranchEscapes (code : Array UInt8) (m : Machine) : Prop :=
  ∃ i, decodeAt code m.ip = .ok i ∧ EscapingBranch code i m

/-- A step fails in one of three ways: there is no instruction at `ip`, the bytes there do
not decode, or the decoded instruction fails once `ip` has moved past it. -/
theorem step_error {code : Array UInt8} {m m' : Machine} {e : RunError}
    (h : (step code).run m = .error e m') :
    (code.size ≤ m.ip ∧ e = .unexpectedEnd ∧ m' = m) ∨
      (m.ip < code.size ∧ ∃ d, decodeAt code m.ip = .error d ∧ e = .decode d ∧ m' = m) ∨
      (∃ i, decodeAt code m.ip = .ok i ∧ FailedAs code i { m with ip := m.ip + i.size } e m') := by
  by_cases hip : m.ip < code.size
  · rcases hd : decodeAt code m.ip with d | i
    · simp [step, hip, hd] at h
      exact .inr (.inl ⟨hip, d, rfl, h.1.symm, h.2.symm⟩)
    · simp [step, hip, hd] at h
      exact .inr (.inr ⟨i, rfl, execute_error h⟩)
  · simp [step, hip] at h
    exact .inl ⟨by omega, h.1.symm, h.2.symm⟩

theorem not_branchEscapes_of_error {code : Array UInt8} {m : Machine} {d : DecodeError}
    (hd : decodeAt code m.ip = .error d) : ¬ BranchEscapes code m := by
  rintro ⟨i, hi, -⟩
  rw [hd] at hi
  cases hi

/-- Nothing decodes at or past the end of the code. -/
theorem decodeAt_ne_ok_of_le {code : Array UInt8} {p : Nat} {i : Instruction}
    (hp : code.size ≤ p) : decodeAt code p ≠ .ok i := by
  intro hi
  have hfit := decodeAt_fits hi
  have hpos := i.size_pos
  omega

theorem not_branchEscapes_of_le {code : Array UInt8} {m : Machine} (hip : code.size ≤ m.ip) :
    ¬ BranchEscapes code m := by
  rintro ⟨i, hi, -⟩
  exact decodeAt_ne_ok_of_le hip hi

/-- A failed step touches nothing but `ip`, the stack and the input: `ip` stays put when the
step could not fetch an instruction and otherwise has moved past the instruction; the stack is
as it was unless a taken branch left the code, which has already popped its two values; and the
input is as it was unless the instruction is an `in`, which has used up the line it read. -/
theorem failed_step_frame {code : Array UInt8} {m m' : Machine} {e : RunError}
    (h : (step code).run m = .error e m') :
    m' = { m with ip := m'.ip, stack := m'.stack, input := m'.input } ∧
      ((e = .unexpectedEnd ∨ ∃ d, e = .decode d) → m'.ip = m.ip) ∧
      ((e ≠ .unexpectedEnd ∧ ∀ d, e ≠ .decode d) →
        ∃ i, decodeAt code m.ip = .ok i ∧ m'.ip = m.ip + i.size) ∧
      (m'.stack = m.stack ↔ ¬ BranchEscapes code m) ∧
      (BranchEscapes code m → m'.stack.values = m.stack.values.drop 2) ∧
      (decodeAt code m.ip = .ok .read → m'.input = (splitLine m.input).2) ∧
      (decodeAt code m.ip ≠ .ok .read → m'.input = m.input) := by
  rcases step_error h with ⟨hip, rfl, rfl⟩ | ⟨-, d, hd, rfl, rfl⟩ |
    ⟨i, hi, hne, hde, hesc, hread, hkeep⟩
  · have hn := not_branchEscapes_of_le hip
    exact ⟨rfl, fun _ => rfl, fun h => absurd rfl h.1, iff_of_true rfl hn, fun hb => absurd hb hn,
      fun hr => absurd hr (decodeAt_ne_ok_of_le hip), fun _ => rfl⟩
  · have hn := not_branchEscapes_of_error hd
    exact ⟨rfl, fun _ => rfl, fun h => absurd rfl (h.2 d), iff_of_true rfl hn,
      fun hb => absurd hb hn, fun h => absurd (hd.symm.trans h) (by simp), fun _ => rfl⟩
  · have hb : BranchEscapes code m ↔ EscapingBranch code i m :=
      ⟨fun ⟨j, hj, hjb⟩ => by rw [hi] at hj; cases hj; exact hjb, fun hib => ⟨i, hi, hib⟩⟩
    have hfetch : ¬ (e = .unexpectedEnd ∨ ∃ d, e = .decode d) :=
      fun h => (h.elim hne fun ⟨d, hd⟩ => hde d hd).elim
    have hreads : decodeAt code m.ip = .ok .read ↔ i = .read := by
      rw [hi, Except.ok.injEq]
    by_cases hib : EscapingBranch code i m
    · have hm := hb.2 hib
      obtain rfl := hesc hib
      obtain ⟨c, t, a, b, rest, rfl, hv, -⟩ := hib
      refine ⟨rfl, fun h => absurd h hfetch, fun _ => ⟨_, hi, rfl⟩,
        iff_of_false (fun hs => ?_) (not_not.2 hm), fun _ => rfl,
        fun h => absurd (hreads.1 h) (by simp), fun _ => rfl⟩
      have := congrArg (fun s : Stack => s.values.length) hs
      simp [hv, Stack.ofValues] at this
      omega
    · by_cases hr : i = .read
      · obtain rfl := hread hr
        exact ⟨rfl, fun h => absurd h hfetch, fun _ => ⟨i, hi, rfl⟩,
          iff_of_true rfl (mt hb.1 hib), fun hb' => absurd (hb.1 hb') hib, fun _ => rfl,
          fun h => absurd (hreads.2 hr) h⟩
      · obtain rfl := hkeep hib hr
        exact ⟨rfl, fun h => absurd h hfetch, fun _ => ⟨i, hi, rfl⟩,
          iff_of_true rfl (mt hb.1 hib), fun hb' => absurd (hb.1 hb') hib,
          fun h => absurd (hreads.1 h) hr, fun _ => rfl⟩

/-- Once two values are pushed, a taken branch to offset 100 of the code of
push 2, push 1, ja 100, hlt fails having popped them. -/
theorem failed_step_frame_taken_branch :
    (step (([.push (.imm 2), .push (.imm 1), .branch .above 100, .halt] : List Instruction).flatMap
        Instruction.encode).toArray).run { Machine.boot 0 [] with ip := 10, stack := .ofValues [1, 2] } =
      .error (.jumpOutOfBounds 100) { Machine.boot 0 [] with ip := 15, stack := .ofValues [] } ∧
    BranchEscapes (([.push (.imm 2), .push (.imm 1), .branch .above 100, .halt] : List Instruction).flatMap
        Instruction.encode).toArray { Machine.boot 0 [] with ip := 10, stack := .ofValues [1, 2] } ∧
    Stack.ofValues [] ≠ Stack.ofValues [1, 2] := by
  have h : (step (([.push (.imm 2), .push (.imm 1), .branch .above 100, .halt] : List Instruction).flatMap
      Instruction.encode).toArray).run { Machine.boot 0 [] with ip := 10, stack := .ofValues [1, 2] } =
      .error (.jumpOutOfBounds 100) { Machine.boot 0 [] with ip := 15, stack := .ofValues [] } := by
    rfl
  have hb : BranchEscapes (([.push (.imm 2), .push (.imm 1), .branch .above 100, .halt] :
      List Instruction).flatMap Instruction.encode).toArray
      { Machine.boot 0 [] with ip := 10, stack := .ofValues [1, 2] } :=
    ⟨.branch .above 100, rfl, .above, 100, 2, 1, [], rfl, rfl, rfl, by decide⟩
  exact ⟨h, hb, fun hs => (failed_step_frame h).2.2.2.1.1 hs hb⟩

end StackMachine
