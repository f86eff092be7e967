import Mathlib
import StackMachine.Proofs.Execution
import StackMachine.Proofs.Resolution
/-!
# Control stays on instruction boundaries

The boundaries of some code are the offsets its listing gives, and its end. The machine reads
an instruction where `ip` stands, so it must only ever stand on a boundary: a step moves `ip`
past the instruction it decoded, to the next boundary, or to a jump target, or back to a
return address, and a failed step leaves it on one of these too.

For assembled code whose jumps and calls all name labels, the targets are the code starts of
labels' lines, which are boundaries; return addresses are pushed by calls and so are
boundaries as well. `fetch_stays_on_boundaries`: in every state the machine reaches, `ip` and
every return address are boundaries, and no step fails to decode.
-/

namespace StackMachine

/-! ## The boundaries of a listing -/

/-- An offset the machine may fetch from: the end of the code, or where an entry of its
listing stands. -/
def OnBoundary (code : Array UInt8) (L : List (Nat × Instruction)) (x : Nat) : Prop :=
  x = code.size ∨ ∃ i, (x, i) ∈ L

theorem OnBoundary.mono {code : Array UInt8} {L L' : List (Nat × Instruction)} {x : Nat}
    (h : OnBoundary code L x) (hsub : L ⊆ L') : OnBoundary code L' x :=
  h.imp_right fun ⟨i, hi⟩ => ⟨i, hsub hi⟩

/-- Each entry of a listing decodes where it stands and is followed by a boundary; and the
listing starts on one. -/
theorem listFrom_entries {code : Array UInt8} {pos : Nat} {L : List (Nat × Instruction)}
    (h : listFrom code pos = .ok L) :
    (∀ x i, (x, i) ∈ L → decodeAt code x = .ok i ∧ OnBoundary code L (x + i.size)) ∧
      (pos ≤ code.size → OnBoundary code L pos) := by
  fun_induction listFrom code pos generalizing L with
  | case1 => simp at h
  | case2 pos _ i hdec ih =>
    rcases hrest : listFrom code (pos + i.size) with e | L'
    · rw [hrest] at h
      simp [Except.map] at h
    rw [hrest] at h
    simp only [Except.map, Except.ok.injEq] at h
    subst h
    obtain ⟨hent, hstart⟩ := ih hrest
    have hnext := (hstart (decodeAt_fits hdec)).mono (List.subset_cons_self (pos, i) L')
    refine ⟨fun x j hx => ?_, fun _ => .inr ⟨i, List.mem_cons_self⟩⟩
    rcases List.mem_cons.1 hx with heq | hx
    · obtain ⟨rfl, rfl⟩ := Prod.mk.inj heq
      exact ⟨hdec, hnext⟩
    · obtain ⟨hd, hb⟩ := hent x j hx
      exact ⟨hd, hb.mono (List.subset_cons_self (pos, i) L')⟩
  | case3 pos hpos =>
    simp only [Except.ok.injEq] at h
    subst h
    exact ⟨by simp, fun hle => .inl (by omega)⟩

/-! ## Where an instruction sends control -/

/-- Where an instruction sends control, whether it completes or fails: `ip` and the return
addresses stay; or `ip` goes to the instruction's target, inside the code, and a call pushes
the `ip` it came from; or `ip` goes to the latest return address, which is popped. -/
theorem execute_control {code : Array UInt8} {i : Instruction} {m m' : Machine}
    (h : Exec.after ((Exec.execute code i).run m) = m') :
    (m'.ip = m.ip ∧ m'.calls = m.calls) ∨
      (∃ t, i.operand = .imm t ∧ i.opcode.operandClass = .target ∧ 0 ≤ t.toInt ∧
        m'.ip = t.toInt.toNat ∧ (m'.calls = m.calls ∨ m'.calls = m.ip :: m.calls)) ∨
      (∃ back rest, m.calls = back :: rest ∧ m'.ip = back ∧ m'.calls = rest) := by
  rcases hr : (Exec.execute code i).run m with ⟨f, m2⟩ | ⟨e, m2⟩
  · rw [hr, Exec.after_ok] at h
    subst h
    cases i with
    | halt =>
      simp [Exec.execute] at hr
      exact .inl ⟨by rw [← hr.2], by rw [← hr.2]⟩
    | push src =>
      rcases hl : (Exec.load src).run m with ⟨v, m1⟩ | ⟨e, m1⟩ <;> simp [Exec.execute, hl] at hr
      have hm : m1 = m := by simpa [hl] using Exec.after_load m src
      subst hm
      exact .inl ⟨by rw [← hr.2], by rw [← hr.2]⟩
    | pop dst =>
      rcases hp : m.stack.peek with e | v
      · simp [Exec.execute, hp] at hr
      rcases hs : (Exec.store v dst).run m with ⟨_, m1⟩ | ⟨e, m1⟩
      · obtain ⟨regs, ram, rfl⟩ := Exec.store_ok m hs
        rcases hpop : m.stack.pop with e | ⟨w, s⟩ <;> simp [Exec.execute, hp, hs, hpop] at hr
        exact .inl ⟨by rw [← hr.2], by rw [← hr.2]⟩
      · simp [Exec.execute, hp, hs] at hr
    | arith op =>
      rcases hpp : m.stack.popPair with e | ⟨⟨a, b⟩, s⟩
      · simp [Exec.execute, hpp] at hr
      rcases hap : op.apply a b with _ | r <;> simp [Exec.execute, hpp, hap] at hr
      exact .inl ⟨by rw [← hr.2], by rw [← hr.2]⟩
    | print =>
      rcases hp : m.stack.peek with e | v <;> simp [Exec.execute, hp] at hr
      exact .inl ⟨by rw [← hr.2], by rw [← hr.2]⟩
    | read =>
      rcases hn : readNumber m.input with e | ⟨v, rest⟩ <;> simp [Exec.execute, hn] at hr
      exact .inl ⟨by rw [← hr.2], by rw [← hr.2]⟩
    | jump t =>
      by_cases ht : 0 ≤ t.toInt ∧ t.toInt < code.size <;> simp [Exec.execute, ht] at hr
      exact .inr (.inl ⟨t, rfl, rfl, ht.1, by rw [← hr.2]; rfl, .inl (by rw [← hr.2])⟩)
    | branch c t =>
      rcases hpp : m.stack.popPair with e | ⟨⟨a, b⟩, s⟩
      · simp [Exec.execute, hpp] at hr
      by_cases hc : c.holds a b = true
      · by_cases ht : 0 ≤ t.toInt ∧ t.toInt < code.size <;>
          simp [Exec.execute, hpp, hc, ht] at hr
        exact .inr (.inl ⟨t, rfl, rfl, ht.1, by rw [← hr.2]; rfl, .inl (by rw [← hr.2])⟩)
      · simp [Exec.execute, hpp, hc] at hr
        exact .inl ⟨by rw [← hr.2], by rw [← hr.2]⟩
    | call t =>
      by_cases ht : 0 ≤ t.toInt ∧ t.toInt < code.size <;> simp [Exec.execute, ht] at hr
      exact .inr (.inl ⟨t, rfl, rfl, ht.1, by rw [← hr.2]; rfl, .inr (by rw [← hr.2])⟩)
    | ret =>
      rcases hc : m.calls with _ | ⟨back, rest⟩ <;> simp [Exec.execute, hc] at hr
      exact .inr (.inr ⟨back, rest, rfl, by rw [← hr.2], by rw [← hr.2]⟩)
  · rw [hr, Exec.after_error] at h
    subst h
    rcases (execute_error hr).cases with hm | hm | hm <;> rw [hm] <;> exact .inl ⟨rfl, rfl⟩

/-! ## Fetching on boundaries, step by step -/

/-- Every jump and call target of the listed code stands on a boundary. -/
def TargetsOnBoundaries (code : Array UInt8) (L : List (Nat × Instruction)) : Prop :=
  ∀ x i, (x, i) ∈ L → ∀ t, i.operand = .imm t → i.opcode.operandClass = .target →
    OnBoundary code L t.toInt.toNat

/-- The machine fetches on boundaries: `ip` and every return address stand on one. -/
def FetchesOnBoundaries (code : Array UInt8) (L : List (Nat × Instruction)) (m : Machine) : Prop :=
  OnBoundary code L m.ip ∧ ∀ r ∈ m.calls, OnBoundary code L r

section Fetch

variable {code : Array UInt8} {L : List (Nat × Instruction)} {m : Machine}

/-- A boundary below the end of the code is where an entry stands, and the entry decodes. -/
theorem OnBoundary.decodes (hL : listing code = .ok L) {x : Nat} (hb : OnBoundary code L x)
    (hx : x < code.size) : ∃ i, (x, i) ∈ L ∧ decodeAt code x = .ok i := by
  obtain ⟨i, hi⟩ := hb.resolve_left (by omega)
  exact ⟨i, hi, ((listFrom_entries hL).1 x i hi).1⟩

/-- A step keeps the machine fetching on boundaries. -/
theorem step_fetches (hL : listing code = .ok L) (ht : TargetsOnBoundaries code L)
    (hm : FetchesOnBoundaries code L m) :
    FetchesOnBoundaries code L (Exec.after ((step code).run m)) := by
  by_cases hip : m.ip < code.size
  · obtain ⟨i, hi, hdec⟩ := hm.1.decodes hL hip
    have hnext := ((listFrom_entries hL).1 m.ip i hi).2
    have hstep : (step code).run m = (Exec.execute code i).run { m with ip := m.ip + i.size } := by
      simp [step, hip, hdec]
    rw [hstep]
    generalize hm2 : Exec.after ((Exec.execute code i).run { m with ip := m.ip + i.size }) = m2
    obtain ⟨-, hcs⟩ := hm
    rcases execute_control hm2 with ⟨hip', hcalls⟩ | ⟨t, hop, hcls, -, hip', hcalls⟩ |
        ⟨back, rest, hc, hip', hcalls⟩
    · refine ⟨?_, ?_⟩
      · rw [hip']
        exact hnext
      · rw [hcalls]
        exact hcs
    · refine ⟨?_, ?_⟩
      · rw [hip']
        exact ht m.ip i hi t hop hcls
      · rcases hcalls with hcalls | hcalls <;> rw [hcalls]
        · exact hcs
        · exact List.forall_mem_cons.2 ⟨hnext, hcs⟩
    · have hc' : m.calls = back :: rest := hc
      rw [hc', List.forall_mem_cons] at hcs
      refine ⟨?_, ?_⟩
      · rw [hip']
        exact hcs.1
      · rw [hcalls]
        exact hcs.2
  · have hstep : (step code).run m = .error .unexpectedEnd m := by
      simp [step, hip]
    rw [hstep, Exec.after_error]
    exact hm

/-- A machine that fetches on boundaries never fails to decode. -/
theorem step_ne_decode (hL : listing code = .ok L) (hm : FetchesOnBoundaries code L m)
    {e : RunError} {m' : Machine} (h : (step code).run m = .error e m') : ∀ d, e ≠ .decode d := by
  intro d hed
  rcases step_error h with ⟨-, he, -⟩ | ⟨hip, d', hd, -, -⟩ | ⟨-, -, -, hde, -⟩
  · rw [hed] at he
    cases he
  · obtain ⟨i, -, hdec⟩ := hm.1.decodes hL hip
    rw [hdec] at hd
    cases hd
  · exact hde d hed

end Fetch

/-- The machines a run of `code` from `m₀` reaches, one step at a time, whether the steps
complete or fail. -/
inductive Reachable (code : Array UInt8) (m₀ : Machine) : Machine → Prop
  | start : Reachable code m₀ m₀
  | next {m : Machine} : Reachable code m₀ m → Reachable code m₀ (Exec.after ((step code).run m))

/-- A run that starts on boundaries stays on them. -/
theorem Reachable.fetches {code : Array UInt8} {L : List (Nat × Instruction)} {m₀ m : Machine}
    (hL : listing code = .ok L) (ht : TargetsOnBoundaries code L)
    (h₀ : FetchesOnBoundaries code L m₀) (h : Reachable code m₀ m) : FetchesOnBoundaries code L m := by
  induction h with
  | start => exact h₀
  | next _ ih => exact step_fetches hL ht ih

/-! ## Assembled code -/

/-- Every element on the right of a pointwise relation is related to one on the left. -/
theorem exists_mem_of_forall₂ {α β : Type} {R : α → β → Prop} {l₁ : List α} {l₂ : List β}
    (h : List.Forall₂ R l₁ l₂) {b : β} (hb : b ∈ l₂) : ∃ a ∈ l₁, R a b := by
  induction h with
  | nil => cases hb
  | @cons a b' l₁ l₂ hab _ ih =>
    rcases List.mem_cons.1 hb with rfl | hb
    · exact ⟨a, List.mem_cons_self, hab⟩
    · obtain ⟨a', ha', hr⟩ := ih hb
      exact ⟨a', List.mem_cons_of_mem a ha', hr⟩

/-- A boundary lies within the code. -/
theorem OnBoundary.le_size {code : Array UInt8} {L : List (Nat × Instruction)} {x : Nat}
    (hL : listing code = .ok L) (hb : OnBoundary code L x) : x ≤ code.size := by
  rcases hb with rfl | ⟨i, hi⟩
  · exact le_rfl
  · have hfit := decodeAt_fits ((listFrom_entries hL).1 x i hi).1
    omega

section Assembled

variable {p : Program} {a : Assembly}

/-- The code start of every line of an assembled program is a boundary of its code. -/
theorem codeStart_onBoundary (h : p.assemble = .ok a) (k : Nat) :
    OnBoundary a.payload.toArray (Instruction.layout 0 a.instructions) (p.codeStart k) := by
  rw [Program.codeStart_eq_find h k]
  rcases hq : (p.emitted.zip (Instruction.layout 0 a.instructions)).find? (k ≤ ·.1.1) with _ | q
  · rw [hq]
    exact .inl (by simp)
  · rw [hq, Option.map_some, Option.getD_some]
    exact .inr ⟨q.2.2, List.of_mem_zip (List.mem_of_find?_eq_some hq) |>.2⟩

/-- When assembled code is shorter than `2 ^ 31` bytes and its jumps and calls all name
labels, their targets are boundaries. -/
theorem targets_onBoundaries (h : p.assemble = .ok a) (hsize : a.payload.length < 2 ^ 31)
    (hnum : ∀ x ∈ p.emitted, ∀ i, x.2 = .fixed i → i.opcode.operandClass ≠ .target) :
    TargetsOnBoundaries a.payload.toArray (Instruction.layout 0 a.instructions) := by
  intro x e hxe t hop hcls
  obtain ⟨y, hy, -, hyield⟩ := exists_mem_of_forall₂ (Program.assemble_layout h) hxe
  rcases hf : y.2 with j | ⟨op, isTarget, name, span⟩
  · rw [hf] at hyield
    cases hyield
    exact absurd hcls (hnum y hy e hf)
  · rw [hf] at hyield
    obtain ⟨k, -, -, hopk⟩ := hyield
    rw [hopk, Operand.imm.injEq] at hop
    subst hop
    -- the label's code start is a boundary, so below `2 ^ 31`, and the operand is exact
    have hb := codeStart_onBoundary h k
    have hle := hb.le_size (listing_flatMap_encode a.instructions)
    have hlt : p.codeStart k < 2 ^ 31 := by
      simp only [List.size_toArray] at hle
      exact lt_of_le_of_lt hle hsize
    rw [Int32.toInt_ofNat_of_lt hlt, Int.toNat_natCast]
    exact hb

end Assembled

/-! ## Fetching follows the assembler -/

/-- Take a program that assembles into fewer than `2 ^ 31` bytes and whose jumps and calls all
name labels. In every state a run of its code reaches from offset 0 with no return address,
whatever the memory, stack and input, `ip` and every return address are boundaries of the
code's listing, and no step fails to decode. -/
theorem fetch_stays_on_boundaries {p : Program} {a : Assembly} (h : p.assemble = .ok a)
    (hsize : a.payload.length < 2 ^ 31)
    (hnum : ∀ x ∈ p.emitted, ∀ i, x.2 = .fixed i → i.opcode.operandClass ≠ .target) :
    ∃ L, listing a.payload.toArray = .ok L ∧
      ∀ m₀ m, m₀.ip = 0 → m₀.calls = [] → Reachable a.payload.toArray m₀ m →
        (m.ip = a.payload.length ∨ ∃ i, (m.ip, i) ∈ L) ∧
        (∀ r ∈ m.calls, r = a.payload.length ∨ ∃ i, (r, i) ∈ L) ∧
        ∀ e m', (step a.payload.toArray).run m = .error e m' → ∀ d, e ≠ .decode d := by
  have hL := listing_flatMap_encode a.instructions
  refine ⟨_, hL, fun m₀ m hip hcalls hm => ?_⟩
  have h₀ : FetchesOnBoundaries a.payload.toArray (Instruction.layout 0 a.instructions) m₀ := by
    refine ⟨?_, ?_⟩
    · rw [hip]
      exact (listFrom_entries hL).2 (Nat.zero_le _)
    · rw [hcalls]
      exact fun r hr => by cases hr
  have hf := hm.fetches hL (targets_onBoundaries h hsize hnum) h₀
  exact ⟨hf.1, hf.2, fun e m' hstep => step_ne_decode hL hf hstep⟩

/-- A call to a subroutine after the halt, which returns to it. -/
theorem fetch_stays_on_boundaries_call :
    (⟨["call f", "hlt", "f: ret"]⟩ : Program).assemble =
        .ok ⟨[.call 6, .halt, .ret], ⟨[("f", ⟨6, 2⟩)]⟩⟩ ∧
      (Assembly.payload ⟨[.call 6, .halt, .ret], ⟨[("f", ⟨6, 2⟩)]⟩⟩).length < 2 ^ 31 ∧
      (∀ x ∈ (⟨["call f", "hlt", "f: ret"]⟩ : Program).emitted, ∀ i, x.2 = .fixed i →
        i.opcode.operandClass ≠ .target) ∧
      ∃ L, listing (Assembly.payload ⟨[.call 6, .halt, .ret], ⟨[("f", ⟨6, 2⟩)]⟩⟩).toArray = .ok L ∧
        ∀ m₀ m, m₀.ip = 0 → m₀.calls = [] → Reachable (Assembly.payload ⟨[.call 6, .halt, .ret],
            ⟨[("f", ⟨6, 2⟩)]⟩⟩).toArray m₀ m →
          (m.ip = (Assembly.payload ⟨[.call 6, .halt, .ret], ⟨[("f", ⟨6, 2⟩)]⟩⟩).length ∨
            ∃ i, (m.ip, i) ∈ L) ∧
          (∀ r ∈ m.calls, r = (Assembly.payload ⟨[.call 6, .halt, .ret], ⟨[("f", ⟨6, 2⟩)]⟩⟩).length ∨
            ∃ i, (r, i) ∈ L) ∧
          ∀ e m', (step (Assembly.payload ⟨[.call 6, .halt, .ret],
            ⟨[("f", ⟨6, 2⟩)]⟩⟩).toArray).run m = .error e m' → ∀ d, e ≠ .decode d := by
  have h : (⟨["call f", "hlt", "f: ret"]⟩ : Program).assemble =
      .ok ⟨[.call 6, .halt, .ret], ⟨[("f", ⟨6, 2⟩)]⟩⟩ := by
    rfl
  have hsize : (Assembly.payload ⟨[.call 6, .halt, .ret], ⟨[("f", ⟨6, 2⟩)]⟩⟩).length < 2 ^ 31 := by
    decide
  have hemitted : (⟨["call f", "hlt", "f: ret"]⟩ : Program).emitted =
      [(0, .toLabel .call rfl "f" ⟨5, 1⟩), (1, .fixed .halt), (2, .fixed .ret)] := by
    rfl
  have hnum : ∀ x ∈ (⟨["call f", "hlt", "f: ret"]⟩ : Program).emitted, ∀ i, x.2 = .fixed i →
      i.opcode.operandClass ≠ .target := by
    intro x hx i hi
    rw [hemitted] at hx
    simp only [List.mem_cons, List.not_mem_nil, or_false] at hx
    rcases hx with rfl | rfl | rfl <;> simp only [Form.fixed.injEq, reduceCtorEq] at hi <;>
      subst hi <;> decide
  exact ⟨h, hsize, hnum, fetch_stays_on_boundaries h hsize hnum⟩

end StackMachine
