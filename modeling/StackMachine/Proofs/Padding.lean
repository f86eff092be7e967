import Mathlib
import StackMachine.Cpu.Run
import StackMachine.Proofs.InstructionTable
/-!
# Padding keeps the run

A step that completes reads the code only inside the instruction at `ip` and at its jump
target, and the memory only at addresses inside it. So a run whose steps all complete goes
the same way on the same code with more bytes after it, and with more memory cells, holding
0, after the memory it had: the same flows, and after each step the same machine but for the
cells added at the end. A larger code or memory can only turn a failing step into one that
completes, never the other way round.

The chain: decoding at an offset of the code is unchanged by bytes appended to it
(`decodeAt_append`); every rule of the instruction table that applies to a machine applies to
it padded (`Executes.pad`); hence a step (`step_pad`), the steps of a run (`afterSteps_pad`)
and a whole run with its report (`runFrom_pad`). `run_ignores_spare_code_and_memory` puts them
together for a machine that boots with any stack and input.
-/

namespace StackMachine

/-- The machine with `k` more memory cells after its own, each holding 0. Everything else is
kept. -/
def Machine.pad (k : Nat) (m : Machine) : Machine :=
  { m with ram := m.ram ++ Array.replicate k 0 }

@[simp] theorem Machine.ram_pad (k : Nat) (m : Machine) :
    (m.pad k).ram = m.ram ++ Array.replicate k 0 := rfl

/-! ## Decoding with more code -/

/-- An instruction that decodes at an offset of the code decodes there whatever bytes follow
the code. -/
theorem decodeAt_append {p q : Array UInt8} {pos : Nat} {i : Instruction}
    (h : decodeAt p pos = .ok i) : decodeAt (p ++ q) pos = .ok i := by
  have hfit := decodeAt_fits h
  rw [decodeAt_eq_ok_iff] at h ⊢
  rw [Array.toList_append, List.drop_append_of_le_length (by simp; omega)]
  exact h.trans (List.prefix_append _ _)

/-! ## The table on a padded machine -/

section Pad

variable {m m' : Machine} {v : Int32} (k : Nat)

theorem Source.Holds.pad {src : Source} (h : src.Holds m v) : src.Holds (m.pad k) v := by
  cases h with
  | imm => exact .imm _
  | reg r => exact .reg r
  | mem ha hv =>
    have hx := (Array.getElem?_eq_some_iff.1 hv).1
    exact .mem ha (by rw [Machine.ram_pad, Array.getElem?_append_left hx, hv])
  | memAt ha hv =>
    have hx := (Array.getElem?_eq_some_iff.1 hv).1
    exact .memAt ha (by rw [Machine.ram_pad, Array.getElem?_append_left hx, hv])

theorem Sink.Writes.pad {dst : Sink} (h : dst.Writes m v m') : dst.Writes (m.pad k) v (m'.pad k) := by
  have hset {x : Nat} (hx : x < m.ram.size) : x < (m.pad k).ram.size := by
    simp only [Machine.ram_pad, Array.size_append]
    omega
  cases h with
  | discard => exact .discard
  | reg r => exact .reg r
  | @mem a x ha hx =>
    rw [Sink.writes_mem]
    exact ⟨x, ha, hset hx, by simp only [Machine.pad, Array.set_append_left hx]⟩
  | @memAt r x ha hx =>
    rw [Sink.writes_memAt]
    exact ⟨x, ha, hset hx, by simp only [Machine.pad, Array.set_append_left hx]⟩

theorem LineHolds.pad_input {rest : List UInt8} (h : LineHolds m.input v rest) :
    LineHolds (m.pad k).input v rest := h

/-- Every rule of the table that applies on `p` applies on `p` with bytes after it and with
more memory. -/
theorem Executes.pad {p q : Array UInt8} {i : Instruction} {f : Flow}
    (h : Executes p m i f m') : Executes (p ++ q) (m.pad k) i f (m'.pad k) := by
  have hsize {x : Nat} (hx : x < p.size) : x < (p ++ q).size := by
    rw [Array.size_append]
    omega
  cases h with
  | halt => exact .halt
  | push hv => exact .push (hv.pad k)
  | pop hv hw => exact Executes.pop (m := m.pad k) hv (hw.pad k)
  | arith hv hdiv hres => exact .arith hv hdiv hres
  | print hv => exact .print hv
  | read hl => exact .read (hl.pad_input k)
  | jump hx hs => exact .jump hx (hsize hs)
  | branchTaken hv hc hx hs => exact .branchTaken hv hc hx (hsize hs)
  | branchNotTaken hv hc => exact .branchNotTaken hv hc
  | call hx hs => exact .call hx (hsize hs)
  | ret hc => exact .ret hc

/-- A rule of the table keeps the size of the memory. -/
theorem Executes.ram_size {code : Array UInt8} {i : Instruction} {f : Flow}
    (h : Executes code m i f m') : m'.ram.size = m.ram.size := by
  cases h with
  | pop _ hw => cases hw <;> simp
  | _ => rfl

end Pad

/-! ## Steps and runs -/

section Run

variable {p q : Array UInt8} (k : Nat)

/-- A step that completes goes the same way with bytes after the code and cells after the
memory. -/
theorem step_pad {m m' : Machine} {f : Flow} (h : (step p).run m = .ok f m') :
    (step (p ++ q)).run (m.pad k) = .ok f (m'.pad k) := by
  obtain ⟨i, hi, hrule⟩ := executes_of_step_ok h
  have hi' : decodeAt (p ++ q) (m.pad k).ip = .ok i := decodeAt_append hi
  rw [step_of_decodeAt hi', execute_eq_ok_iff]
  exact hrule.pad k

/-- A step that completes keeps the size of the memory. -/
theorem step_ram_size {code : Array UInt8} {m m' : Machine} {f : Flow}
    (h : (step code).run m = .ok f m') : m'.ram.size = m.ram.size := by
  obtain ⟨i, -, hrule⟩ := executes_of_step_ok h
  exact hrule.ram_size

/-- While the steps of a run complete, the memory keeps its size. -/
theorem afterSteps_ram_size {code : Array UInt8} {m : Machine} {n : Nat}
    (hok : ∀ j < n, ∃ f m', (step code).run (afterSteps code m j) = .ok f m') :
    (afterSteps code m n).ram.size = m.ram.size := by
  induction n with
  | zero => rfl
  | succ n ih =>
    obtain ⟨f, m', hstep⟩ := hok n (by omega)
    rw [afterSteps_succ, hstep, Exec.after_ok, step_ram_size hstep,
      ih (fun j hj => hok j (by omega))]

/-- While the steps of a run complete, the run with more code and memory is the run padded. -/
theorem afterSteps_pad {m : Machine} {n : Nat}
    (hok : ∀ j < n, ∃ f m', (step p).run (afterSteps p m j) = .ok f m') :
    afterSteps (p ++ q) (m.pad k) n = (afterSteps p m n).pad k := by
  induction n with
  | zero => rfl
  | succ n ih =>
    obtain ⟨f, m', hstep⟩ := hok n (by omega)
    rw [afterSteps_succ, afterSteps_succ, ih (fun j hj => hok j (by omega)), step_pad k hstep,
      hstep, Exec.after_ok, Exec.after_ok]

/-- A run that does not fault reports the same with more code and memory, its machine
padded. -/
theorem runFrom_pad {budget : Nat} {m : Machine} {steps : Nat} {trace : Array TraceEntry}
    (h : ∀ e, (runFrom p budget m steps trace).status ≠ .faulted e) :
    runFrom (p ++ q) budget (m.pad k) steps trace =
      { runFrom p budget m steps trace with machine := (runFrom p budget m steps trace).machine.pad k } := by
  induction budget generalizing m steps trace with
  | zero => rfl
  | succ budget ih =>
    rcases hstep : step p m with ⟨f, m'⟩ | ⟨e, m'⟩
    · have hpad : step (p ++ q) (m.pad k) = .ok f (m'.pad k) := step_pad k hstep
      cases f with
      | next =>
        simp only [runFrom, hstep] at h ⊢
        rw [hpad]
        exact ih h
      | halt =>
        simp only [runFrom, hstep]
        rw [hpad]
        rfl
    · simp only [runFrom, hstep] at h
      exact absurd rfl (h _)

end Run

/-- A run depends on the size of the code and of the memory only through faults. Boot two
machines with the same stack and input, one with `c` memory cells running `p`, the other with
`c' ≥ c` cells running `p` followed by any bytes `q`. While the first run's steps complete,
the second run's steps complete with the same flows, and after each step its machine is the
first one's with the memory padded by zeros to `c'` cells: the same `ip`, stack, registers,
return addresses, input and printed numbers. A run that ends without a fault reports the same
status, steps and trace with more code and memory. -/
theorem run_ignores_spare_code_and_memory (p q : Array UInt8) {c c' : Nat} (hc : c ≤ c')
    (s : Stack) (input : List UInt8) (n : Nat)
    (hok : ∀ j < n, ∃ f m', (step p).run (afterSteps p { Machine.boot c input with stack := s } j) =
      .ok f m') :
    (∀ j < n, ∀ f m', (step p).run (afterSteps p { Machine.boot c input with stack := s } j) =
        .ok f m' →
      (step (p ++ q)).run (afterSteps (p ++ q) { Machine.boot c' input with stack := s } j) =
        .ok f (m'.pad (c' - c))) ∧
    (∀ j ≤ n, afterSteps (p ++ q) { Machine.boot c' input with stack := s } j =
        (afterSteps p { Machine.boot c input with stack := s } j).pad (c' - c) ∧
      (afterSteps (p ++ q) { Machine.boot c' input with stack := s } j).ram.size = c') ∧
    ∀ budget, (∀ e, (run p budget { Machine.boot c input with stack := s }).status ≠ .faulted e) →
      run (p ++ q) budget { Machine.boot c' input with stack := s } =
        { run p budget { Machine.boot c input with stack := s } with
          machine := (run p budget { Machine.boot c input with stack := s }).machine.pad (c' - c) } := by
  have hboot : ({ Machine.boot c' input with stack := s } : Machine) =
      ({ Machine.boot c input with stack := s } : Machine).pad (c' - c) := by
    simp only [Machine.pad, Machine.boot, Array.replicate_append_replicate]
    congr
    omega
  -- up to step `n` the larger run is the smaller one padded, whose memory keeps its size
  have hpad (j : Nat) (hj : j ≤ n) : afterSteps (p ++ q) { Machine.boot c' input with stack := s } j =
      (afterSteps p { Machine.boot c input with stack := s } j).pad (c' - c) := by
    rw [hboot]
    exact afterSteps_pad _ (fun i hi => hok i (by omega))
  have hsize (j : Nat) (hj : j ≤ n) :
      (afterSteps p { Machine.boot c input with stack := s } j).ram.size = c := by
    rw [afterSteps_ram_size (fun i hi => hok i (by omega))]
    simp [Machine.boot]
  refine ⟨fun j hj f m' hstep => ?_, fun j hj => ⟨hpad j hj, ?_⟩, fun budget h => ?_⟩
  · rw [hpad j hj.le]
    exact step_pad _ hstep
  · rw [hpad j hj, Machine.ram_pad, Array.size_append, hsize j hj, Array.size_replicate]
    omega
  · rw [hboot]
    exact runFrom_pad _ h

/-- Pushing 1, printing it and halting, with no memory: a byte after the code and two more
cells change nothing the run shows. -/
theorem run_ignores_spare_code_and_memory_print :
    (0 : Nat) ≤ 2 ∧
      (∀ j < 3, ∃ f m', (step #[1, 1, 0, 0, 0, 7, 0]).run
        (afterSteps #[1, 1, 0, 0, 0, 7, 0] { Machine.boot 0 [] with stack := .empty } j) =
          .ok f m') ∧
      (∀ j < 3, ∀ f m', (step #[1, 1, 0, 0, 0, 7, 0]).run
          (afterSteps #[1, 1, 0, 0, 0, 7, 0] { Machine.boot 0 [] with stack := .empty } j) =
            .ok f m' →
        (step (#[1, 1, 0, 0, 0, 7, 0] ++ #[255])).run
          (afterSteps (#[1, 1, 0, 0, 0, 7, 0] ++ #[255]) { Machine.boot 2 [] with stack := .empty } j) =
            .ok f (m'.pad (2 - 0))) ∧
      (∀ j ≤ 3, afterSteps (#[1, 1, 0, 0, 0, 7, 0] ++ #[255]) { Machine.boot 2 [] with stack := .empty } j =
          (afterSteps #[1, 1, 0, 0, 0, 7, 0] { Machine.boot 0 [] with stack := .empty } j).pad (2 - 0) ∧
        (afterSteps (#[1, 1, 0, 0, 0, 7, 0] ++ #[255])
          { Machine.boot 2 [] with stack := .empty } j).ram.size = 2) ∧
      ∀ budget, (∀ e, (run #[1, 1, 0, 0, 0, 7, 0] budget
          { Machine.boot 0 [] with stack := .empty }).status ≠ .faulted e) →
        run (#[1, 1, 0, 0, 0, 7, 0] ++ #[255]) budget { Machine.boot 2 [] with stack := .empty } =
          { run #[1, 1, 0, 0, 0, 7, 0] budget { Machine.boot 0 [] with stack := .empty } with
            machine := (run #[1, 1, 0, 0, 0, 7, 0] budget
              { Machine.boot 0 [] with stack := .empty }).machine.pad (2 - 0) } := by
  have hok : ∀ j < 3, ∃ f m', (step #[1, 1, 0, 0, 0, 7, 0]).run
      (afterSteps #[1, 1, 0, 0, 0, 7, 0] { Machine.boot 0 [] with stack := .empty } j) = .ok f m' := by
    intro j hj
    interval_cases j <;> exact ⟨_, _, rfl⟩
  exact ⟨by decide, hok, run_ignores_spare_code_and_memory _ #[255] (by decide) .empty [] 3 hok⟩

end StackMachine
