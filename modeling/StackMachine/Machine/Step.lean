import StackMachine.Instr
import StackMachine.Machine.State

/-!
# Dispatching one instruction

`step` says what a single instruction does to a state. It knows nothing of sinks and
traces: an instruction that prints or jumps says so, and the run acts on it.

Operands are popped from the top, the first one popped being the left one. An instruction
that finds too few operands pops what is there, so that an underflow always leaves the
stack empty; one that faults has popped its operands and changed nothing else.

## Main definitions

* `Action`: what an instruction does.
* `Opcode.perform` and `step`: the semantics.
-/

namespace StackMachine

/-- What a dispatched instruction does. -/
inductive Action where
  /-- Goes on to the next instruction. -/
  | next (s : State)
  /-- Prints a value, then goes on to the next instruction. -/
  | print (value : Int) (s : State)
  /-- Goes on at the position of a label. -/
  | jump (label target : Nat) (s : State)
  /-- Finds too few operands. -/
  | underflow (s : State)
  /-- Meets a fault. -/
  | fault (cause : Cause) (s : State)
  /-- Names no operation. -/
  | unknown

/-- The truth value of a comparison. -/
def truth (b : Bool) : Int := if b then 1 else 0

/-- Jumps to a popped label, from a state whose operands are popped already. -/
def State.jump (s : State) (id : Int) : Action :=
  match s.table.target? id with
  | some target => .jump id.toNat target s
  | none => .fault (.labelUndefined id) s

/-- What an operation does. -/
def Opcode.perform (op : Opcode) (s : State) : Action :=
  match op, s.stack with
  | .add, a :: b :: rest => .next (s.withStack (Word.wrap (a + b) :: rest))
  | .sub, a :: b :: rest => .next (s.withStack (Word.wrap (a - b) :: rest))
  | .mul, a :: b :: rest => .next (s.withStack (Word.wrap (a * b) :: rest))
  | .div, a :: b :: rest =>
    if b = 0 then .fault (.divisionByZero a) (s.withStack rest)
    else .next (s.withStack (Word.wrap (a.tdiv b) :: rest))
  | .load, addr :: rest =>
    match s.memory.load addr with
    | .ok v => .next (s.withStack (v :: rest))
    | .error cause => .fault cause (s.withStack rest)
  | .store, addr :: value :: rest =>
    match s.memory.store addr value with
    | .ok memory => .next { s with stack := rest, memory }
    | .error cause => .fault cause (s.withStack rest)
  | .jmp, id :: rest => (s.withStack rest).jump id
  | .cjmp, id :: cond :: rest =>
    if cond = 0 then .next (s.withStack rest) else (s.withStack rest).jump id
  | .put, a :: rest => .print a (s.withStack rest)
  | .dup, a :: rest => .next (s.withStack (a :: a :: rest))
  | .swap, a :: b :: rest => .next (s.withStack (b :: a :: rest))
  | .eq, a :: b :: rest => .next (s.withStack (truth (a == b) :: rest))
  | .lt, a :: b :: rest => .next (s.withStack (truth (a < b) :: rest))
  | .gt, a :: b :: rest => .next (s.withStack (truth (a > b) :: rest))
  | _, _ => .underflow (s.withStack [])

/-- What an instruction does. -/
def step (ins : Instr) (s : State) : Action :=
  match ins with
  | .lit v => .next (s.withStack (v :: s.stack))
  | .label _ => .next s
  | .mislabel _ => .next s
  | .bare op => op.perform s
  | .unknown _ => .unknown

end StackMachine
