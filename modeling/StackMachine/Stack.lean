/-!
# The operand stack

The machine computes on a stack of 32-bit words. Taking a value from an empty stack, or two
from a stack with fewer than two, fails without touching the stack, and says how many values
were needed and how many there were.

The values are kept top first, with their count beside them, so that the depth, which every
traced step reports, costs nothing to read.
-/

namespace StackMachine

/-- An operation needed more values than the stack held. -/
structure StackError where
  needed : Nat
  available : Nat
  deriving DecidableEq, Repr

/-- The text the error is reported with. -/
def StackError.message (e : StackError) : String :=
  s!"stack underflow: needed {e.needed} value(s), found {e.available}"

/-- A stack of 32-bit words. -/
structure Stack where
  /-- The values, the top one first. -/
  values : List Int32
  /-- How many values are on the stack. -/
  size : Nat
  size_eq : size = values.length

namespace Stack

/-- The stack holding `values`, the top one first. -/
def ofValues (values : List Int32) : Stack := ⟨values, values.length, rfl⟩

/-- The stack with nothing on it. -/
def empty : Stack := ofValues []

/-- The values from the bottom up. -/
def toList (s : Stack) : List Int32 := s.values.reverse

/-- The stack with `v` on top. -/
def push (v : Int32) (s : Stack) : Stack :=
  ⟨v :: s.values, s.size + 1, by simp [s.size_eq]⟩

/-- The top value. -/
def peek (s : Stack) : Except StackError Int32 :=
  match s.values with
  | v :: _ => .ok v
  | [] => .error ⟨1, 0⟩

/-- The top value, and the stack without it. -/
def pop (s : Stack) : Except StackError (Int32 × Stack) :=
  match s.values with
  | v :: rest => .ok (v, ofValues rest)
  | [] => .error ⟨1, 0⟩

/-- The top two values, the one below the top first, and the stack without them. -/
def popPair (s : Stack) : Except StackError ((Int32 × Int32) × Stack) :=
  match s.values with
  | b :: a :: rest => .ok ((a, b), ofValues rest)
  | _ => .error ⟨2, s.size⟩

@[ext] theorem ext {s t : Stack} (h : s.values = t.values) : s = t := by
  cases s
  cases t
  simp_all

@[simp] theorem size_push (v : Int32) (s : Stack) : (s.push v).size = s.size + 1 := rfl

@[simp] theorem values_push (v : Int32) (s : Stack) : (s.push v).values = v :: s.values := rfl

@[simp] theorem toList_push (v : Int32) (s : Stack) : (s.push v).toList = s.toList ++ [v] := by
  simp [push, toList]

@[simp] theorem pop_push (v : Int32) (s : Stack) : (s.push v).pop = .ok (v, s) := by
  simp only [pop, values_push, Except.ok.injEq, Prod.mk.injEq, true_and]
  ext
  rfl

@[simp] theorem peek_push (v : Int32) (s : Stack) : (s.push v).peek = .ok v := rfl

instance : DecidableEq Stack := fun s t =>
  if h : s.values = t.values then isTrue (ext h) else isFalse (fun e => h (e ▸ rfl))

instance : Repr Stack where
  reprPrec s _ := repr s.toList

end Stack

end StackMachine
