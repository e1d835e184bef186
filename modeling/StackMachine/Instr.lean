import StackMachine.Diagnostic
import StackMachine.Word

/-!
# Instructions

An instruction pushes a literal, marks a position with a label, or performs one of the
fourteen operations that carry no operand. A program assembled by hand may also name an
operation that does not exist, or a label by a number that no label can have; both are
kept as they are, so that the program can still be written.

## Main definitions

* `Opcode`: the operations without an operand, with their names and their source tokens.
* `Instr`: an instruction.
* `Instr.literalOf` and `Instr.labelOf`: instructions from numbers.
* `Instr.WellFormed` and `Program.WellFormed`: what the two stored forms can hold.
-/

namespace StackMachine

/-- The operations that carry no operand. -/
inductive Opcode where
  | add | sub | mul | div
  | load | store
  | jmp | cjmp
  | put | dup | swap
  | eq | lt | gt
  deriving DecidableEq, Repr

namespace Opcode

/-- All operations, in the order in which tables list them. -/
def all : List Opcode :=
  [add, sub, mul, div, load, store, jmp, cjmp, put, dup, swap, eq, lt, gt]

/-- The name of an operation in bytecode. -/
def name : Opcode → String
  | add => "ADD"
  | sub => "SUB"
  | mul => "MUL"
  | div => "DIV"
  | load => "LOAD"
  | store => "STORE"
  | jmp => "JMP"
  | cjmp => "CJMP"
  | put => "PUT"
  | dup => "DUP"
  | swap => "SWAP"
  | eq => "EQ"
  | lt => "LT"
  | gt => "GT"

/-- The word that stands for an operation in source text. -/
def token : Opcode → String
  | add => "+"
  | sub => "-"
  | mul => "*"
  | div => "/"
  | load => "load"
  | store => "store"
  | jmp => "jmp"
  | cjmp => "cjmp"
  | put => "."
  | dup => "dup"
  | swap => "swap"
  | eq => "="
  | lt => "<"
  | gt => ">"

/-- The operation of a given name. -/
def ofName? (s : String) : Option Opcode := all.find? fun op => op.name == s

/-- The operation that a word of source text stands for. -/
def ofToken? (s : String) : Option Opcode := all.find? fun op => op.token == s

/-- A name determines its operation. -/
@[simp]
theorem ofName?_name (op : Opcode) : ofName? op.name = some op := by
  cases op <;> rfl

/-- A token determines its operation. -/
@[simp]
theorem ofToken?_token (op : Opcode) : ofToken? op.token = some op := by
  cases op <;> rfl

/-- How many cells an operation pops. -/
def arity : Opcode → Nat
  | load | jmp | put | dup => 1
  | _ => 2

end Opcode

/-- An instruction. -/
inductive Instr where
  /-- Pushes a value. -/
  | lit (value : Int)
  /-- Marks a position as the target of jumps to the label. -/
  | label (id : Nat)
  /-- Performs an operation. -/
  | bare (op : Opcode)
  /-- Names a label by something other than a natural number, to which nothing can jump. -/
  | mislabel (id : Number)
  /-- Names an operation that does not exist. -/
  | unknown (name : String)
  deriving DecidableEq

namespace Instr

/-- The instruction that performs the operation of a given name. -/
def ofName (name : String) : Instr :=
  match Opcode.ofName? name with
  | some op => bare op
  | none => unknown name

/-- The instruction that marks the label of a given number. -/
def marking (x : Number) : Instr :=
  match x.toInt? with
  | some (.ofNat n) => label n
  | _ => mislabel x

/-- The literal of any integer, reduced to a word. -/
def literal (v : Int) : Instr := lit (Word.wrap v)

/-- The literal of a number, which must be an integer. -/
def literalOf (x : Number) : Except Defect Instr :=
  match x.toInt? with
  | some v => .ok (literal v)
  | none => .error (.notIntegral x)

/-- The label of a number, which must be a natural number and exact. -/
def labelOf (x : Number) : Except Defect Instr :=
  match x.safeNat? with
  | some n => .ok (label n)
  | none => .error (.labelId x)

/-- Whether an instruction has the form of a label. -/
def isLabel : Instr → Bool
  | label _ | mislabel _ => true
  | _ => false

/-- Whether an instruction may jump. -/
def isJump : Instr → Bool
  | bare .jmp | bare .cjmp => true
  | _ => false

/-- The instructions that the stored forms can hold: literals of sixty-four bits, labels
whose number is exact in binary64, and operations that exist. -/
def WellFormed : Instr → Prop
  | lit v => Word.InRange v
  | label n => n ≤ Number.greatestSafe
  | bare _ => True
  | mislabel _ => False
  | unknown _ => False

instance : DecidablePred WellFormed
  | lit v => inferInstanceAs (Decidable (Word.InRange v))
  | label n => inferInstanceAs (Decidable (n ≤ Number.greatestSafe))
  | bare _ => inferInstanceAs (Decidable True)
  | mislabel _ => inferInstanceAs (Decidable False)
  | unknown _ => inferInstanceAs (Decidable False)

end Instr

/-- A program is a list of instructions. -/
abbrev Program := List Instr

/-- The programs that the stored forms can hold. -/
def Program.WellFormed (program : Program) : Prop := ∀ ins ∈ program, ins.WellFormed

instance (program : Program) : Decidable program.WellFormed :=
  inferInstanceAs (Decidable (∀ ins ∈ program, ins.WellFormed))

end StackMachine
