import StackMachine.Memory

/-!
# Machine states

A machine holds a stack, a memory and a jump table, and keeps them from one program to the
next. The jump table is dense as well: label `n` can be bound only once the labels below
`n` are.

## Main definitions

* `JumpTable`: the positions of labels.
* `State`: what a machine holds.
-/

namespace StackMachine

/-- The positions of labels, by label. -/
structure JumpTable where
  /-- The instruction index of each label. -/
  entries : Array Nat
  deriving DecidableEq, Repr

namespace JumpTable

/-- The table without labels. -/
def empty : JumpTable := ⟨#[]⟩

instance : Inhabited JumpTable := ⟨empty⟩

/-- The number of labels that are bound. -/
def size (t : JumpTable) : Nat := t.entries.size

/-- The position of a label, if it is bound. -/
def target? (t : JumpTable) (id : Int) : Option Nat :=
  if id < 0 then none else t.entries[id.toNat]?

/-- Binds a label to a position. The label must be bound already or be the next one, so that
the table stays dense. -/
def bind (t : JumpTable) (id index : Nat) (h : id ≤ t.size) : JumpTable :=
  if hnext : id = t.size then ⟨t.entries.push index⟩
  else ⟨t.entries.set id index (Nat.lt_of_le_of_ne h hnext)⟩

/-- The positions in the order of the labels. -/
def toList (t : JumpTable) : List Nat := t.entries.toList

/-- Binding moves one label and no other. -/
theorem target?_bind {t : JumpTable} {id : Nat} (h : id ≤ t.size) (index : Nat) (other : Int) :
    (t.bind id index h).target? other = if other = id then some index else t.target? other := by
  unfold bind
  split
  next hnext =>
    simp only [target?, size] at hnext ⊢
    grind
  next hbound =>
    simp only [target?, size] at hbound h ⊢
    grind

/-- Binding the next label makes room for it, and binding an earlier one does not. -/
theorem size_bind {t : JumpTable} {id : Nat} (h : id ≤ t.size) (index : Nat) :
    (t.bind id index h).size = if id = t.size then t.size + 1 else t.size := by
  unfold bind
  split
  · simp only [size, Array.size_push]
  · simp only [size, Array.size_set]

end JumpTable

/-- What a machine holds. -/
structure State where
  /-- The stack, its top first. -/
  stack : List Int
  /-- The memory. -/
  memory : Memory
  /-- The jump table. -/
  table : JumpTable
  deriving DecidableEq, Repr

namespace State

/-- The state of a new machine. -/
def initial : State := ⟨[], .empty, .empty⟩

instance : Inhabited State := ⟨initial⟩

/-- The state with another stack. -/
def withStack (s : State) (stack : List Int) : State := { s with stack }

end State

end StackMachine
