import Mathlib
import StackMachine.Proofs.InstructionTable
/-!
# The dispatch never panics

`step` carries out a typed instruction, whose operand has the kind its opcode calls for. The
machine's own dispatch is written over an instruction's opcode and raw operand instead: it hands
the operand to helpers that jump, load and store, and those helpers have arms it declares
unreachable (a jump to something other than an immediate, a load from no operand, a store into
an immediate). It also indexes the register file by a register's index, and divides with a
wrapping division that has no result for a zero divisor. `Dispatch.step` is that dispatch, with
each of these cases kept as a panic, which stops the program instead of returning an error.

`Dispatch.agrees_step` proves the two agree part by part (`Dispatch.Agrees`), sequencing
being the only combinator that needs an argument. `step_never_panics`: on every code and every
machine, whatever `ip` is, the dispatch computes exactly what `step` computes, so it returns a
result or an error and never panics. It also states why: the decoder's table gives each
opcode's class only modes of its kind, every register has an index in the register file, the
value that `pop` looked at is still on top when it is removed, and division refuses a zero
divisor before dividing; the smallest word divided by -1 wraps to itself.
-/

namespace StackMachine

/-- Why the machine would stop the whole program in the middle of a step, instead of returning
an error. -/
inductive Panic
  /-- A jump, branch or call handed an operand other than an immediate. -/
  | jumpOperand
  /-- A `push` handed no operand. -/
  | loadOperand
  /-- A `pop` handed an immediate to store into. -/
  | storeOperand
  /-- A register index outside the register file. -/
  | registerIndex
  /-- A wrapping division by zero. -/
  | divideByZero
  deriving DecidableEq, Repr

/-- How a step of the dispatch ends early: with an error the machine reports, or with a panic. -/
inductive Stop
  | error (e : RunError)
  | panic (p : Panic)
  deriving DecidableEq, Repr

/-- Computations of the dispatch: those of the machine, which may also panic. -/
abbrev Dispatch := EStateM Stop Machine

/-- A result of the machine as the dispatch reports it: its errors are errors, not panics. -/
def Stop.ofResult {α : Type} :
    EStateM.Result RunError Machine α → EStateM.Result Stop Machine α
  | .ok a m => .ok a m
  | .error e m => .error (.error e) m

namespace Dispatch

/-- Runs a computation of the machine. -/
def lift {α : Type} (x : Exec α) : Dispatch α := fun m => Stop.ofResult (x.run m)

/-- Stops the program. -/
def panic {α : Type} (p : Panic) : Dispatch α := throw (.panic p)

/-- The value of a register, read from the register file at the register's index. -/
def reg (r : Register) : Dispatch Int32 := do
  match (← get).regs.toList[r.id]? with
  | some v => pure v
  | none => panic .registerIndex

/-- Writes a register of the register file at the register's index. -/
def setReg (r : Register) (v : Int32) : Dispatch Unit := do
  if r.id < (← get).regs.toList.length then modify fun m => { m with regs := m.regs.set r v }
  else panic .registerIndex

/-- Jumps to the target an operand holds; only an immediate holds one. -/
def jump (code : Array UInt8) : Operand → Dispatch Unit
  | .imm t => lift (Exec.jumpTo code t)
  | _ => panic .jumpOperand

/-- The value an operand denotes; without an operand there is none. -/
def load : Operand → Dispatch Int32
  | .imm v => pure v
  | .reg r => reg r
  | .memImm a => lift (Exec.load (.mem a))
  | .memReg r => do lift (Exec.load (.mem (← reg r)))
  | .none => panic .loadOperand

/-- Writes a value where an operand says; an immediate is no place to write. -/
def store (v : Int32) : Operand → Dispatch Unit
  | .none => pure ()
  | .reg r => setReg r v
  | .memImm a => lift (Exec.store v (.mem a))
  | .memReg r => do lift (Exec.store v (.mem (← reg r)))
  | .imm _ => panic .storeOperand

/-- Division wrapping at the ends of the 32-bit range; it has no result for a zero divisor. -/
def wrappingDiv (a b : Int32) : Dispatch Int32 :=
  if b = 0 then panic .divideByZero else pure (a / b)

/-- Takes `b` (the top) and `a` off the stack and pushes what `op` makes of them; when `op`
refuses, puts both back and fails. -/
def binary (op : Int32 → Int32 → Dispatch (Except RunError Int32)) : Dispatch Unit := do
  let (a, b) ← lift (Exec.onStack Stack.popPair)
  match ← op a b with
  | .ok r => lift (Exec.push r)
  | .error e => do
    lift (Exec.push a)
    lift (Exec.push b)
    throw (.error e)

/-- Takes `b` and `a` off the stack and jumps to the target when `cond` holds of them. -/
def jumpIf (code : Array UInt8) (target : Operand) (cond : Int32 → Int32 → Bool) :
    Dispatch Unit := do
  let (a, b) ← lift (Exec.onStack Stack.popPair)
  if cond a b then jump code target

/-- Carries out an opcode with an operand, `ip` having moved past the instruction. -/
def execute (code : Array UInt8) (op : Opcode) (o : Operand) : Dispatch Flow :=
  match op with
  | .halt => pure .halt
  | .push => do
    let v ← load o
    lift (Exec.push v)
    pure .next
  | .pop => do
    let v ← lift Exec.peek
    store v o
    let _ ← lift (Exec.onStack Stack.pop)
    pure .next
  | .arith .add => do
    binary fun a b => pure (.ok (a + b))
    pure .next
  | .arith .sub => do
    binary fun a b => pure (.ok (a - b))
    pure .next
  | .arith .mul => do
    binary fun a b => pure (.ok (a * b))
    pure .next
  | .arith .div => do
    binary fun a b => if b = 0 then pure (.error .divisionByZero) else .ok <$> wrappingDiv a b
    pure .next
  | .print => do
    let v ← lift Exec.peek
    modify fun m => { m with printed := m.printed.push v }
    pure .next
  | .read => do
    let v ← lift Exec.readInput
    lift (Exec.push v)
    pure .next
  | .jump => do
    jump code o
    pure .next
  | .branch c => do
    jumpIf code o c.holds
    pure .next
  | .call => do
    let back := (← get).ip
    jump code o
    modify fun m => { m with calls := back :: m.calls }
    pure .next
  | .ret => do
    match (← get).calls with
    | back :: rest =>
      modify fun m => { m with ip := back, calls := rest }
      pure .next
    | [] => throw (.error .returnUnderflow)

/-- One step of the machine running `code`, dispatched on the decoded opcode and raw operand. -/
def step (code : Array UInt8) : Dispatch Flow := do
  let m ← get
  if m.ip < code.size then
    match decodeAt code m.ip with
    | .ok i =>
      set { m with ip := m.ip + i.size }
      execute code i.opcode i.operand
    | .error e => throw (.error (.decode e))
  else throw (.error .unexpectedEnd)

end Dispatch

/-! ## What the dispatch relies on -/

/-- A result of the machine is reported as a result or as an error, never as a panic. -/
theorem Stop.ofResult_ne_panic {α : Type} (r : EStateM.Result RunError Machine α) {p : Panic}
    {m : Machine} : Stop.ofResult r ≠ .error (.panic p) m := by
  cases r <;> simp [Stop.ofResult]

/-- The register file has an entry at every register's index. -/
theorem Registers.getElem?_toList_id (rs : Registers) (r : Register) :
    rs.toList[r.id]? = some (rs.get r) := by
  cases r <;> rfl

theorem Operand.mode_eq_imm {o : Operand} : o.mode = .imm ↔ ∃ t, o = .imm t := by
  cases o <;> simp [Operand.mode]

/-- What each operand class admits: a target only an immediate, a source anything but no
operand, a sink anything but an immediate. -/
theorem OperandClass.admits_kind {c : OperandClass} {md : Mode} (h : c.admits md = true) :
    (c = .target → md = .imm) ∧ (c = .source → md ≠ .none) ∧ (c = .sink → md ≠ .imm) := by
  cases c <;> cases md <;> simp_all [OperandClass.admits]

/-! ## The dispatch computes what `step` computes -/

namespace Dispatch

variable {code : Array UInt8} {m : Machine}

@[simp] theorem run_lift {α : Type} (x : Exec α) : (lift x).run m = Stop.ofResult (x.run m) :=
  rfl

@[simp] theorem run_panic {α : Type} (p : Panic) :
    (panic p : Dispatch α).run m = .error (.panic p) m := rfl

@[simp] theorem run_reg (r : Register) : (reg r).run m = .ok (m.regs.get r) m := by
  cases r <;> rfl

@[simp] theorem run_setReg (r : Register) (v : Int32) :
    (setReg r v).run m = .ok () { m with regs := m.regs.set r v } := by
  cases r <;> rfl

/-- `y` computes what `x` computes from every machine, the errors of `x` being its errors. -/
def Agrees {α : Type} (y : Dispatch α) (x : Exec α) : Prop :=
  ∀ m, y.run m = Stop.ofResult (x.run m)

section Agrees

variable {α β : Type}

theorem agrees_lift (x : Exec α) : Agrees (lift x) x := fun _ => rfl

theorem agrees_pure (a : α) : Agrees (pure a) (pure a) := fun _ => rfl

theorem agrees_throw (e : RunError) : Agrees (throw (.error e) : Dispatch α) (throw e) :=
  fun _ => rfl

theorem agrees_throw_bind (e : RunError) (g : α → Dispatch β) :
    Agrees (throw (.error e) >>= g) (throw e) := fun _ => rfl

theorem agrees_get : Agrees (get : Dispatch Machine) get := fun _ => rfl

theorem agrees_set (m' : Machine) : Agrees (set m' : Dispatch PUnit) (set m') := fun _ => rfl

theorem agrees_modify (f : Machine → Machine) : Agrees (modify f : Dispatch Unit) (modify f) :=
  fun _ => rfl

/-- Agreement is kept by sequencing: the first parts agree, and so do the rests after each
value the first part can return. -/
theorem Agrees.bind {y : Dispatch α} {x : Exec α} {g : α → Dispatch β} {f : α → Exec β}
    (hy : Agrees y x) (hf : ∀ a, Agrees (g a) (f a)) : Agrees (y >>= g) (x >>= f) := by
  intro m
  rw [EStateM.run_bind, EStateM.run_bind, hy m]
  rcases x.run m with ⟨a, m'⟩ | ⟨e, m'⟩
  · exact hf a m'
  · rfl

end Agrees

/-- Loading from a source's operand never reaches the arm for a missing operand. -/
theorem agrees_load (src : Source) : Agrees (load src.operand) (Exec.load src) := by
  intro m
  cases src with
  | imm v => rfl
  | reg r => simp [load, Source.operand, Exec.load, Stop.ofResult]
  | mem a => rfl
  | memAt r => simp [load, Source.operand, Exec.load]

/-- Storing into a sink's operand never reaches the arm for an immediate. -/
theorem agrees_store (v : Int32) (dst : Sink) :
    Agrees (store v dst.operand) (Exec.store v dst) := by
  intro m
  cases dst with
  | discard => rfl
  | reg r => simp [store, Sink.operand, Exec.store, Stop.ofResult]
  | mem a => rfl
  | memAt r => simp [store, Sink.operand, Exec.store]

/-- Dispatching an instruction's opcode and operand carries the instruction out. Most arms are
the instruction's own sequence of operations, matched part by part. -/
theorem agrees_execute (i : Instruction) :
    Agrees (execute code i.opcode i.operand) (Exec.execute code i) := by
  cases i with
  | halt => exact agrees_pure _
  | push src =>
    exact (agrees_load src).bind fun _ => (agrees_lift _).bind fun _ => agrees_pure _
  | pop dst =>
    refine (agrees_lift _).bind fun v => (agrees_store v dst).bind fun _ => ?_
    exact (agrees_lift _).bind fun _ => agrees_pure _
  | arith op =>
    cases op <;> simp only [execute, Exec.execute, Instruction.opcode, binary, bind_assoc] <;>
      refine (agrees_lift _).bind fun ab => ?_ <;> rcases ab with ⟨a, b⟩
    case div =>
      -- the zero divisor is refused before the wrapping division is reached
      by_cases hb : b = 0
      · simp only [hb, if_true, pure_bind, bind_assoc, Arith.apply]
        exact (agrees_lift _).bind fun _ => (agrees_lift _).bind fun _ => agrees_throw_bind _ _
      · simp only [hb, if_false, wrappingDiv, map_pure, pure_bind, Arith.apply]
        exact (agrees_lift _).bind fun _ => agrees_pure _
    all_goals
      simp only [pure_bind, Arith.apply]
      exact (agrees_lift _).bind fun _ => agrees_pure _
  | print => exact (agrees_lift _).bind fun _ => (agrees_modify _).bind fun _ => agrees_pure _
  | read => exact (agrees_lift _).bind fun _ => (agrees_lift _).bind fun _ => agrees_pure _
  | jump t => exact (agrees_lift _).bind fun _ => agrees_pure _
  | branch c t =>
    simp only [execute, Exec.execute, Instruction.opcode, Instruction.operand, jumpIf, bind_assoc]
    refine (agrees_lift _).bind fun ab => ?_
    rcases ab with ⟨a, b⟩
    by_cases hc : c.holds a b = true
    · simp only [hc, if_true]
      exact (agrees_lift _).bind fun _ => agrees_pure _
    · simp only [Bool.not_eq_true] at hc
      simp only [hc, Bool.false_eq_true, if_false, pure_bind]
      exact agrees_pure _
  | call t =>
    refine agrees_get.bind fun _ => (agrees_lift _).bind fun _ => ?_
    exact (agrees_modify _).bind fun _ => agrees_pure _
  | ret =>
    refine agrees_get.bind fun s => ?_
    rcases s.calls with _ | ⟨back, rest⟩
    · exact agrees_throw _
    · exact (agrees_modify _).bind fun _ => agrees_pure _

/-- The dispatch computes what the machine's step computes, from every machine. -/
theorem agrees_step : Agrees (step code) (StackMachine.step code) := by
  refine agrees_get.bind fun m => ?_
  by_cases hip : m.ip < code.size
  · simp only [hip, if_true]
    rcases decodeAt code m.ip with e | i
    · exact agrees_throw _
    · exact (agrees_set _).bind fun _ => agrees_execute i
  · simp only [hip, if_false]
    exact agrees_throw _

end Dispatch

theorem step_never_panics (code : Array UInt8) (m : Machine) :
    (Dispatch.step code).run m = Stop.ofResult ((step code).run m) ∧
      (∀ p m', (Dispatch.step code).run m ≠ .error (.panic p) m') ∧
      (∀ (op : Opcode) (bits : Nat) (md : Mode), op.operandClass.modeOfBits? bits = some md →
        (op.operandClass = .target → md = .imm) ∧ (op = .push → md ≠ .none) ∧
          (op = .pop → md ≠ .imm)) ∧
      (∀ pos i, decodeAt code pos = .ok i →
        (i.opcode.operandClass = .target → ∃ t, i.operand = .imm t) ∧
          (i.opcode = .push → i.operand ≠ .none) ∧
          (i.opcode = .pop → ∀ v, i.operand ≠ .imm v)) ∧
      (∀ r : Register, r.id < 4 ∧ m.regs.toList[r.id]? = some (m.regs.get r)) ∧
      (∀ v dst m', m.stack.peek = .ok v → (Exec.store v dst).run m = .ok () m' →
        ∃ s, m'.stack.pop = .ok (v, s)) ∧
      Arith.apply .div (-2147483648) (-1) = some (-2147483648) := by
  have hagree : (Dispatch.step code).run m = Stop.ofResult ((step code).run m) :=
    Dispatch.agrees_step m
  refine ⟨hagree, ?_, ?_, ?_, fun r => ⟨r.id_lt, m.regs.getElem?_toList_id r⟩, ?_, by decide⟩
  · intro p m'
    rw [hagree]
    exact Stop.ofResult_ne_panic _
  · intro op bits md h
    have hk := OperandClass.admits_kind (admits_of_modeOfBits? h)
    exact ⟨hk.1, fun hop => hk.2.1 (by subst hop; rfl), fun hop => hk.2.2 (by subst hop; rfl)⟩
  · intro pos i _
    have hk := OperandClass.admits_kind i.admits
    refine ⟨fun hc => Operand.mode_eq_imm.1 (hk.1 hc), fun hop h => ?_, fun hop v h => ?_⟩
    · exact hk.2.1 (by rw [hop]; rfl) (by rw [h]; rfl)
    · exact hk.2.2 (by rw [hop]; rfl) (by rw [h]; rfl)
  · intro v dst m' hv hs
    obtain ⟨rest, hrest⟩ := Stack.peek_eq_ok_iff.1 hv
    have hstack := (Exec.run_store_eq_ok_iff.1 hs).stack_eq
    exact ⟨_, Stack.pop_of_values (hstack ▸ hrest)⟩

/-- `pop rax` over a stack holding 7: with `pop`, mode bits 1 stand for a register, the
instruction decodes with that operand, and the store `pop` makes leaves 7 on top for the pop
after it. -/
theorem step_never_panics_pop_rax :
    let code := (Instruction.pop (.reg .rax)).encode.toArray
    let m : Machine := { Machine.boot 0 [] with stack := .ofValues [7] }
    let m' : Machine := { m with regs := m.regs.set .rax 7 }
    (Opcode.pop.operandClass.modeOfBits? 1 = some .reg ∧ Mode.reg ≠ .imm) ∧
      (decodeAt code 0 = .ok (.pop (.reg .rax)) ∧
        ∀ v, (Instruction.pop (.reg .rax)).operand ≠ .imm v) ∧
      (m.stack.peek = .ok 7 ∧ (Exec.store 7 (.reg .rax)).run m = .ok () m' ∧
        ∃ s, m'.stack.pop = .ok (7, s)) := by
  intro code m m'
  have h := step_never_panics code m
  have hbits : Opcode.pop.operandClass.modeOfBits? 1 = some .reg := rfl
  have hd : decodeAt code 0 = .ok (.pop (.reg .rax)) := by simp only [code]; rfl
  have hp : m.stack.peek = .ok 7 := rfl
  have hs : (Exec.store 7 (.reg .rax)).run m = .ok () m' := rfl
  exact ⟨⟨hbits, (h.2.2.1 _ _ _ hbits).2.2 rfl⟩, ⟨hd, (h.2.2.2.1 0 _ hd).2.2 rfl⟩,
    ⟨hp, hs, h.2.2.2.2.2.1 7 (.reg .rax) m' hp hs⟩⟩

end StackMachine
