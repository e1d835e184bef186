import StackMachine.Diagnostic

/-!
# Faults of a run

What can go wrong inside a running program. A fault is a cause together with the index of
the instruction that met it; its code, explanation and details follow from the two.
-/

namespace StackMachine

/-- The causes of faults. -/
inductive Cause where
  /-- A division of the dividend by zero. -/
  | divisionByZero (dividend : Int)
  /-- A load from an address outside a memory of the given size. -/
  | loadOutside (addr : Int) (size : Nat)
  /-- A store past the end of a memory of the given size. -/
  | storePast (addr : Int) (size : Nat)
  /-- A label that was introduced while the next free one was still unbound. -/
  | labelOrder (id : Number) (next : Nat)
  /-- A jump to a label that was never bound. -/
  | labelUndefined (id : Int)
  deriving DecidableEq

namespace Cause

/-- The code of a cause. -/
def code : Cause → Code
  | divisionByZero _ => .divisionByZero
  | loadOutside _ _ => .memoryLoad
  | storePast _ _ => .memoryStore
  | labelOrder _ _ => .labelOrder
  | labelUndefined _ => .labelUndefined

/-- The wording of a cause. -/
def explain : Cause → String
  | divisionByZero a => "division of " ++ toString a ++ " by zero"
  | loadOutside addr size =>
    "load from " ++ toString addr ++ " outside memory of length " ++ toString size
  | storePast addr size =>
    "store to " ++ toString addr ++ " past end of memory of length " ++ toString size
  | labelOrder id next =>
    "label " ++ id.text ++ " introduced before label " ++ toString next
  | labelUndefined id => "jump to undefined label " ++ toString id

/-- The address or label that a cause names. An address, like a label that a jump popped,
is a word and is named by its digits; a label of the program is a number. -/
def operand : Cause → List (String × Detail)
  | divisionByZero _ => []
  | loadOutside addr _ => [("addr", .text (toString addr))]
  | storePast addr _ => [("addr", .text (toString addr))]
  | labelOrder id _ => [("label", .number id)]
  | labelUndefined id => [("label", .text (toString id))]

/-- The diagnosis of a cause, met at an instruction of which the caller gives the number. -/
def diagnostic (ip : Number) (cause : Cause) : Diagnostic :=
  ⟨cause.code, cause.explain, ("ip", .number ip) :: cause.operand⟩

end Cause

/-- A cause at an instruction. -/
structure Fault where
  /-- The index of the instruction. -/
  ip : Nat
  /-- What happened there. -/
  cause : Cause
  deriving DecidableEq

/-- The diagnosis of a fault. -/
def Fault.diagnostic (f : Fault) : Diagnostic := f.cause.diagnostic (.ofNat f.ip)

end StackMachine
