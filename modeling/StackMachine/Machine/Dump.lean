import StackMachine.Machine.State

/-!
# Dumps

A dump is a copy of what a machine holds, to be looked at. Its text has three sections:
the stack with its top first, the memory, and the jump table. A cell of the stack is
numbered from the bottom, so that its number does not change while cells come and go above
it.

## Main definitions

* `Dump` and `State.dump`: the copy.
* `Dump.text`: the text.
-/

namespace StackMachine

/-- A copy of what a machine holds. -/
structure Dump where
  /-- The stack, its top first. -/
  stack : List Int
  /-- The memory, by address. -/
  memory : List Int
  /-- The positions of labels, by label. -/
  labels : List Number
  deriving DecidableEq

/-- The dump of a state. -/
def State.dump (s : State) : Dump := ⟨s.stack, s.memory.toList, s.table.toList.map .ofNat⟩

namespace Dump

/-- A titled section. -/
def titled (title : String) (rows : List String) : List String :=
  ("---- " ++ title ++ " ----") :: (if rows.isEmpty then ["(empty)"] else rows)

/-- The rows of the cells below the top of the stack. -/
def lowerRows : List Int → List String
  | [] => []
  | v :: rest => ("       " ++ toString rest.length ++ " " ++ toString v) :: lowerRows rest

/-- The rows of the stack. -/
def stackRows : List Int → List String
  | [] => []
  | v :: rest => ("top => " ++ toString rest.length ++ " " ++ toString v) :: lowerRows rest

/-- The rows of the memory. -/
def memoryRows (cells : List Int) : List String :=
  cells.zipIdx.map fun (v, addr) => toString addr ++ " " ++ toString v

/-- The rows of the jump table. -/
def labelRows (entries : List Number) : List String :=
  entries.zipIdx.map fun (index, id) => toString id ++ ": -> " ++ index.text

/-- The text of a dump. -/
def text (d : Dump) : String :=
  "\n".intercalate <|
    titled "stack" (stackRows d.stack) ++ titled "memory" (memoryRows d.memory)
      ++ titled "labels" (labelRows d.labels)

end Dump

end StackMachine
