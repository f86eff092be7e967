import StackMachine.Text.Ascii
/-!
# Registers

The machine has four general registers. Each has an id, used in encoded operands, and a
name, used in source and listings.
-/

namespace StackMachine

/-- The four general registers. -/
inductive Register
  | rax
  | rbx
  | rcx
  | rdx
  deriving DecidableEq, Repr

namespace Register

/-- Every register, in id order. -/
def all : List Register := [rax, rbx, rcx, rdx]

/-- The register's id in encoded operands. -/
def id : Register → Nat
  | rax => 0
  | rbx => 1
  | rcx => 2
  | rdx => 3

/-- The register's name. -/
def name : Register → String
  | rax => "rax"
  | rbx => "rbx"
  | rcx => "rcx"
  | rdx => "rdx"

/-- The register with a given id. -/
def ofId? (n : Nat) : Option Register :=
  all[n]?

/-- The register a name denotes, ASCII case ignored. -/
def ofName? (s : String) : Option Register :=
  all.find? fun r => Text.sameIgnoringCase r.name s

theorem ofId?_id (r : Register) : ofId? r.id = some r := by
  cases r <;> rfl

theorem id_lt (r : Register) : r.id < 4 := by
  cases r <;> decide

theorem ofId?_eq_none {n : Nat} (h : 4 ≤ n) : ofId? n = none := by
  simp [ofId?, all]
  omega

end Register

end StackMachine
