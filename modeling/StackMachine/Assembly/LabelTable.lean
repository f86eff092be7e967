/-!
# The label table

The assembler's first pass binds each label to the code offset where it is defined. The
first binding of a name is the one that counts: binding it again fails and reports the
binding that stays. The table keeps the order in which names were bound.

The table is an insertion-ordered map with no removal, kept as the list of its bindings in the
order they were made: looking a name up finds its binding in the list, binding a new name
appends, and iterating reads the list. How the map is hashed changes nothing of this.
-/

namespace StackMachine

/-- What a label is bound to: a code offset, and the line (counted from 0) that defines it. -/
structure LabelDef where
  ip : UInt32
  line : Nat
  deriving DecidableEq, Repr

/-- Label bindings in the order they were made, each name at most once. -/
structure LabelTable where
  entries : List (String × LabelDef)
  deriving DecidableEq, Repr

namespace LabelTable

/-- The table with no labels. -/
def empty : LabelTable := ⟨[]⟩

/-- What a name is bound to. -/
def get? (t : LabelTable) (name : String) : Option LabelDef :=
  (t.entries.find? (·.1 == name)).map (·.2)

/-- Binds a new name after the others, or reports the binding a name already has. -/
def insert (t : LabelTable) (name : String) (d : LabelDef) : Except LabelDef LabelTable :=
  match t.get? name with
  | some first => .error first
  | none => .ok ⟨t.entries ++ [(name, d)]⟩

/-- How many names are bound. -/
def size (t : LabelTable) : Nat := t.entries.length

@[simp] theorem get?_empty (name : String) : empty.get? name = none := rfl

theorem insert_eq_error {t : LabelTable} {name : String} {d first : LabelDef} :
    t.insert name d = .error first ↔ t.get? name = some first := by
  unfold insert
  split <;> simp_all

end LabelTable

end StackMachine
