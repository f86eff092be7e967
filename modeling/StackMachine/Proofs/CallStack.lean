import Mathlib
import StackMachine.Proofs.InstructionTable
/-!
# Calls and returns

Whatever the code, the machine only ever saves return addresses it computed itself: a call
that completes saves the offset just past itself, and nothing else puts an address on the
return stack. So along any run from offset 0 with no return address saved, `ip` stays within
the code, every saved return address stands just past a call instruction, whose byte is the
one byte that decodes as `call`, and every `ret` that completes resumes right after a call
that completed earlier in the same run.

Step by step: `step_calls` says what one step does to the return stack, whether it completes
or fails; `CallDiscipline` is the invariant over the first `n` steps of a run, which
`callDiscipline_succ` carries over one more step. `calls_return_after_calls` reads the
statements above off it.
-/

namespace StackMachine

/-- The step from `m` runs a call that completes. -/
def CompletesCall (code : Array UInt8) (m : Machine) : Prop :=
  (∃ t, decodeAt code m.ip = .ok (.call t)) ∧ ∃ m', (step code).run m = .ok .next m'

/-- The step from `m` runs a `ret` that completes. -/
def CompletesRet (code : Array UInt8) (m : Machine) : Prop :=
  decodeAt code m.ip = .ok .ret ∧ ∃ m', (step code).run m = .ok .next m'

/-! ## The one byte of a call -/

/-- A call decodes only from the byte 16, and takes five bytes inside the code. -/
theorem decodeAt_call {code : Array UInt8} {pos : Nat} {t : Int32}
    (h : decodeAt code pos = .ok (.call t)) : code[pos]? = some 16 ∧ pos + 5 ≤ code.size := by
  have hfit := decodeAt_fits h
  have hbyte := (prefix_drop_cons_iff.1 (decodeAt_eq_ok_iff.1 h)).1
  rw [Array.getElem?_toList] at hbyte
  exact ⟨hbyte, hfit⟩

/-! ## What a rule of the table does to the return stack -/

section Rules

variable {code : Array UInt8} {m m' : Machine} {f : Flow}

theorem Sink.Writes.frame {v : Int32} {dst : Sink} (h : dst.Writes m v m') :
    m'.ip = m.ip ∧ m'.calls = m.calls := by
  cases h <;> exact ⟨rfl, rfl⟩

/-- Every rule but those of `call` and `ret` keeps the return addresses. -/
theorem Executes.calls_eq {i : Instruction} (h : Executes code m i f m')
    (hc : ∀ t, i ≠ .call t) (hr : i ≠ .ret) : m'.calls = m.calls := by
  cases h with
  | pop _ hw => exact hw.frame.2
  | call => exact absurd rfl (hc _)
  | ret => exact absurd rfl hr
  | _ => rfl

/-- Every rule but that of `ret` leaves `ip` where it was or at a target inside the code. -/
theorem Executes.ip_le {i : Instruction} (h : Executes code m i f m') (hr : i ≠ .ret)
    (hm : m.ip ≤ code.size) : m'.ip ≤ code.size := by
  cases h with
  | pop _ hw => rw [hw.frame.1]; exact hm
  | jump _ hs => exact hs.le
  | branchTaken _ _ _ hs => exact hs.le
  | call _ hs => exact hs.le
  | ret => exact absurd rfl hr
  | _ => exact hm

theorem Executes.call_calls {t : Int32} (h : Executes code m (.call t) f m') :
    f = .next ∧ m'.calls = m.ip :: m.calls := by
  cases h
  exact ⟨rfl, rfl⟩

theorem Executes.ret_calls (h : Executes code m .ret f m') :
    f = .next ∧ m.calls = m'.ip :: m'.calls := by
  cases h with
  | ret hc => exact ⟨rfl, hc⟩

end Rules

/-! ## One step -/

section Step

variable {code : Array UInt8} {m m' : Machine}

/-- A step that fails keeps the return addresses, and leaves `ip` where it was or just past
the instruction at `ip`. -/
theorem step_error_frame {e : RunError} (h : (step code).run m = .error e m')
    (hm : m.ip ≤ code.size) : m'.calls = m.calls ∧ m'.ip ≤ code.size := by
  rcases step_error h with ⟨-, -, rfl⟩ | ⟨-, d, -, -, rfl⟩ | ⟨i, hi, hfail⟩
  · exact ⟨rfl, hm⟩
  · exact ⟨rfl, hm⟩
  · have hfit := decodeAt_fits hi
    rcases hfail.cases with rfl | rfl | rfl <;> exact ⟨rfl, hfit⟩

/-- What one step does to the return stack: it keeps it, or a call that completes pushes the
offset just past itself, or a `ret` that completes pops the address it resumes at. Along the
way `ip` stays within the code, unless it resumes at a return address. -/
theorem step_calls (hm : m.ip ≤ code.size) :
    ((Exec.after ((step code).run m)).calls = m.calls ∧
        (Exec.after ((step code).run m)).ip ≤ code.size) ∨
      (CompletesCall code m ∧
        (Exec.after ((step code).run m)).calls = (m.ip + 5) :: m.calls ∧
        (Exec.after ((step code).run m)).ip ≤ code.size) ∨
      (CompletesRet code m ∧
        m.calls = (Exec.after ((step code).run m)).ip :: (Exec.after ((step code).run m)).calls) := by
  rcases hstep : (step code).run m with ⟨f, m'⟩ | ⟨e, m'⟩
  · rw [Exec.after_ok]
    obtain ⟨i, hi, hrule⟩ := executes_of_step_ok hstep
    have hfit := decodeAt_fits hi
    by_cases hc : ∃ t, i = .call t
    · obtain ⟨t, rfl⟩ := hc
      obtain ⟨rfl, hcalls⟩ := hrule.call_calls
      exact .inr (.inl ⟨⟨⟨t, hi⟩, m', hstep⟩, hcalls, hrule.ip_le (by simp) hfit⟩)
    · by_cases hr : i = .ret
      · subst hr
        obtain ⟨rfl, hcalls⟩ := hrule.ret_calls
        exact .inr (.inr ⟨⟨hi, m', hstep⟩, hcalls⟩)
      · exact .inl ⟨hrule.calls_eq (fun t ht => hc ⟨t, ht⟩) hr, hrule.ip_le hr hfit⟩
  · rw [Exec.after_error]
    exact .inl (step_error_frame hstep hm)

/-- A `ret` that completes resumes at the latest return address and pops it. -/
theorem step_ret_pops (h : CompletesRet code m) :
    m.calls = (Exec.after ((step code).run m)).ip :: (Exec.after ((step code).run m)).calls := by
  obtain ⟨hd, m', hok⟩ := h
  rw [hok, Exec.after_ok]
  exact (execute_eq_ok_iff.1 ((step_of_decodeAt hd).symm.trans hok)).ret_calls.2

end Step

/-! ## Along a run -/

/-- `r` was saved by a call that completed at one of the first `n` steps of the run of `code`
from `m₀`: the offset just past that call. -/
def PushedBefore (code : Array UInt8) (m₀ : Machine) (n r : Nat) : Prop :=
  ∃ j < n, CompletesCall code (afterSteps code m₀ j) ∧ r = (afterSteps code m₀ j).ip + 5

theorem PushedBefore.mono {code : Array UInt8} {m₀ : Machine} {n n' r : Nat} (h : n ≤ n')
    (hp : PushedBefore code m₀ n r) : PushedBefore code m₀ n' r := by
  obtain ⟨j, hj, hc, hr⟩ := hp
  exact ⟨j, by omega, hc, hr⟩

/-- A saved return address stands just past a call: at least 5, within the code, and after
the call's byte. -/
theorem PushedBefore.after_call {code : Array UInt8} {m₀ : Machine} {n r : Nat}
    (hp : PushedBefore code m₀ n r) : 5 ≤ r ∧ r ≤ code.size ∧ code[r - 5]? = some 16 := by
  obtain ⟨j, -, ⟨⟨t, ht⟩, -⟩, rfl⟩ := hp
  obtain ⟨hbyte, hfit⟩ := decodeAt_call ht
  exact ⟨by omega, hfit, by rw [Nat.add_sub_cancel]; exact hbyte⟩

/-- The invariant after `n` steps of a run: `ip` lies within the code, and every return address
was saved by a call that completed earlier in the run. -/
def CallDiscipline (code : Array UInt8) (m₀ : Machine) (n : Nat) : Prop :=
  (afterSteps code m₀ n).ip ≤ code.size ∧
    ∀ r ∈ (afterSteps code m₀ n).calls, PushedBefore code m₀ n r

section Run

variable {code : Array UInt8} {m₀ : Machine}

theorem callDiscipline_zero (hip : m₀.ip = 0) (hcalls : m₀.calls = []) :
    CallDiscipline code m₀ 0 := by
  refine ⟨by simp [hip], ?_⟩
  rw [afterSteps_zero, hcalls]
  intro r hr
  cases hr

/-- One more step keeps the invariant. -/
theorem callDiscipline_succ {n : Nat} (h : CallDiscipline code m₀ n) :
    CallDiscipline code m₀ (n + 1) := by
  obtain ⟨hip, hcalls⟩ := h
  rw [CallDiscipline, afterSteps_succ]
  rcases step_calls hip with ⟨hkeep, hle⟩ | ⟨hcall, hpush, hle⟩ | ⟨-, hpop⟩
  · rw [hkeep]
    exact ⟨hle, fun r hr => (hcalls r hr).mono (by omega)⟩
  · rw [hpush]
    refine ⟨hle, fun r hr => ?_⟩
    rcases List.mem_cons.1 hr with rfl | hr
    · exact ⟨n, by omega, hcall, rfl⟩
    · exact (hcalls r hr).mono (by omega)
  · -- `ret` resumes at a saved address, which stands just past a call inside the code
    have hback := hcalls _ (hpop ▸ List.mem_cons_self)
    refine ⟨hback.after_call.2.1, fun r hr => ?_⟩
    exact (hcalls r (hpop ▸ List.mem_cons_of_mem _ hr)).mono (by omega)

/-- The invariant holds all along a run from offset 0 with no return address. -/
theorem callDiscipline_all (hip : m₀.ip = 0) (hcalls : m₀.calls = []) (n : Nat) :
    CallDiscipline code m₀ n := by
  induction n with
  | zero => exact callDiscipline_zero hip hcalls
  | succ n ih => exact callDiscipline_succ ih

end Run

/-- Call/return discipline over every run. Run any code from a machine at offset 0 with no
return address. After every number `n` of steps: `ip` lies within the code; every return
address `r` satisfies `5 ≤ r ≤` the code's size and stands right after the byte 16, the only
byte that decodes as `call`; the next step keeps the return stack, or is a call that completes
and pushes the offset past itself, or is a `ret` that completes and pops the address it
resumes at; and a `ret` that completes resumes just past a call that completed at an earlier
step of the same run. -/
theorem calls_return_after_calls (code : Array UInt8) (m₀ : Machine) (hip : m₀.ip = 0)
    (hcalls : m₀.calls = []) (n : Nat) :
    (∀ pos t, decodeAt code pos = .ok (.call t) → code[pos]? = some 16) ∧
    (afterSteps code m₀ n).ip ≤ code.size ∧
    (∀ r ∈ (afterSteps code m₀ n).calls, 5 ≤ r ∧ r ≤ code.size ∧ code[r - 5]? = some 16) ∧
    ((afterSteps code m₀ (n + 1)).calls = (afterSteps code m₀ n).calls ∨
      (CompletesCall code (afterSteps code m₀ n) ∧
        (afterSteps code m₀ (n + 1)).calls =
          ((afterSteps code m₀ n).ip + 5) :: (afterSteps code m₀ n).calls) ∨
      (CompletesRet code (afterSteps code m₀ n) ∧
        (afterSteps code m₀ n).calls =
          (afterSteps code m₀ (n + 1)).ip :: (afterSteps code m₀ (n + 1)).calls)) ∧
    (CompletesRet code (afterSteps code m₀ n) →
      ∃ j < n, CompletesCall code (afterSteps code m₀ j) ∧
        (afterSteps code m₀ (n + 1)).ip = (afterSteps code m₀ j).ip + 5) := by
  obtain ⟨hle, hpushed⟩ : CallDiscipline code m₀ n := callDiscipline_all hip hcalls n
  have hstep := step_calls hle
  rw [← afterSteps_succ] at hstep
  refine ⟨fun pos t h => (decodeAt_call h).1, hle, fun r hr => (hpushed r hr).after_call,
    hstep.imp (fun h => h.1) (Or.imp (fun h => ⟨h.1, h.2.1⟩) id), fun hret => ?_⟩
  have hpop := step_ret_pops hret
  rw [← afterSteps_succ] at hpop
  exact hpushed _ (hpop ▸ List.mem_cons_self)

/-- A call to a `ret` placed after the halt, from a machine just booted: after the call, the
`ret` resumes at offset 5, past the call. -/
theorem calls_return_after_calls_subroutine :
    (Machine.boot 0 []).ip = 0 ∧ (Machine.boot 0 []).calls = [] ∧
    (∀ pos t, decodeAt #[16, 6, 0, 0, 0, 0, 17] pos = .ok (.call t) →
      (#[16, 6, 0, 0, 0, 0, 17] : Array UInt8)[pos]? = some 16) ∧
    (afterSteps #[16, 6, 0, 0, 0, 0, 17] (Machine.boot 0 []) 1).ip ≤
      (#[16, 6, 0, 0, 0, 0, 17] : Array UInt8).size ∧
    (∀ r ∈ (afterSteps #[16, 6, 0, 0, 0, 0, 17] (Machine.boot 0 []) 1).calls,
      5 ≤ r ∧ r ≤ (#[16, 6, 0, 0, 0, 0, 17] : Array UInt8).size ∧
        (#[16, 6, 0, 0, 0, 0, 17] : Array UInt8)[r - 5]? = some 16) ∧
    ((afterSteps #[16, 6, 0, 0, 0, 0, 17] (Machine.boot 0 []) (1 + 1)).calls =
        (afterSteps #[16, 6, 0, 0, 0, 0, 17] (Machine.boot 0 []) 1).calls ∨
      (CompletesCall #[16, 6, 0, 0, 0, 0, 17] (afterSteps #[16, 6, 0, 0, 0, 0, 17] (Machine.boot 0 []) 1) ∧
        (afterSteps #[16, 6, 0, 0, 0, 0, 17] (Machine.boot 0 []) (1 + 1)).calls =
          ((afterSteps #[16, 6, 0, 0, 0, 0, 17] (Machine.boot 0 []) 1).ip + 5) ::
            (afterSteps #[16, 6, 0, 0, 0, 0, 17] (Machine.boot 0 []) 1).calls) ∨
      (CompletesRet #[16, 6, 0, 0, 0, 0, 17] (afterSteps #[16, 6, 0, 0, 0, 0, 17] (Machine.boot 0 []) 1) ∧
        (afterSteps #[16, 6, 0, 0, 0, 0, 17] (Machine.boot 0 []) 1).calls =
          (afterSteps #[16, 6, 0, 0, 0, 0, 17] (Machine.boot 0 []) (1 + 1)).ip ::
            (afterSteps #[16, 6, 0, 0, 0, 0, 17] (Machine.boot 0 []) (1 + 1)).calls)) ∧
    (CompletesRet #[16, 6, 0, 0, 0, 0, 17] (afterSteps #[16, 6, 0, 0, 0, 0, 17] (Machine.boot 0 []) 1) →
      ∃ j < 1, CompletesCall #[16, 6, 0, 0, 0, 0, 17] (afterSteps #[16, 6, 0, 0, 0, 0, 17] (Machine.boot 0 []) j) ∧
        (afterSteps #[16, 6, 0, 0, 0, 0, 17] (Machine.boot 0 []) (1 + 1)).ip =
          (afterSteps #[16, 6, 0, 0, 0, 0, 17] (Machine.boot 0 []) j).ip + 5) :=
  ⟨rfl, rfl, calls_return_after_calls _ _ rfl rfl 1⟩

end StackMachine
