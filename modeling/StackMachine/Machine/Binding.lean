import StackMachine.Instr
import StackMachine.Machine.State

/-!
# Binding labels

Before a program runs, its labels are bound in the order of the program. A label that is
bound already is bound anew. A label above the next free one stops the binding, and what
was bound before it stays bound. A label whose number is not a natural number has no place
in the table; it stops the binding in the same way, and is passed over otherwise.

## Main definitions

* `Binding`: the outcome, with the labels that were met on the way.
* `JumpTable.bindAll`: the pass over a program.
-/

namespace StackMachine

/-- The outcome of binding the labels of a program. -/
structure Binding where
  /-- The table afterwards. -/
  table : JumpTable
  /-- The labels that were met, each with its position, in order. -/
  bound : List (Number × Nat)
  /-- The label that stopped the binding, if one did. -/
  fault : Option Fault

namespace JumpTable

/-- Binds the labels of the part of a program that starts at an index. -/
def bindFrom (index : Nat) (t : JumpTable) : Program → Binding
  | [] => ⟨t, [], none⟩
  | .label id :: rest =>
    if h : t.size < id then ⟨t, [], some ⟨index, .labelOrder (.ofNat id) t.size⟩⟩
    else
      let later := bindFrom (index + 1) (t.bind id index (Nat.le_of_not_lt h)) rest
      { later with bound := (.ofNat id, index) :: later.bound }
  | .mislabel id :: rest =>
    if id.exceeds t.size then ⟨t, [], some ⟨index, .labelOrder id t.size⟩⟩
    else
      let later := bindFrom (index + 1) t rest
      { later with bound := (id, index) :: later.bound }
  | _ :: rest => bindFrom (index + 1) t rest

/-- Binds the labels of a program. -/
def bindAll (t : JumpTable) (program : Program) : Binding := bindFrom 0 t program

end JumpTable

end StackMachine
