import StackMachine.Json.Writer

/-!
# Diagnostics

What goes wrong falls into two classes. A *diagnosed* failure belongs to the domain: it
has a code, an explanation, and details that point at the offence, and it can be turned
into a result. A *defect* lies outside: a caller broke a promise, or the surroundings
failed. It is never turned into a result.

## Main definitions

* `Diagnostic`: a diagnosed failure, with `Diagnostic.message` and `Diagnostic.report`.
* `Defect`: a failure from outside.
* `Error`: either of them.
* `Error.capture`: diagnosed failures become results, defects pass through.
-/

namespace StackMachine

/-- The classes of diagnosed failures. -/
inductive Code where
  | divisionByZero
  | memoryLoad
  | memoryStore
  | labelOrder
  | labelUndefined
  | token
  | bytecode
  /-- A class that is not the machine's own, by its name. -/
  | other (name : String)
  deriving DecidableEq, Repr

namespace Code

/-- The codes of the machine itself. -/
def all : List Code :=
  [divisionByZero, memoryLoad, memoryStore, labelOrder, labelUndefined, token, bytecode]

/-- The name of a code in messages and traces. -/
def name : Code → String
  | divisionByZero => "E_DIV_ZERO"
  | memoryLoad => "E_MEM_LOAD"
  | memoryStore => "E_MEM_STORE"
  | labelOrder => "E_LABEL_ORDER"
  | labelUndefined => "E_LABEL_UNDEFINED"
  | token => "E_TOKEN"
  | bytecode => "E_BYTECODE"
  | other s => s

/-- The code of a given name. -/
def ofName (s : String) : Code := (all.find? fun c => c.name == s).getD (other s)

end Code

/-- The value of a detail. -/
inductive Detail where
  | text (value : String)
  | number (value : Number)
  deriving DecidableEq

/-- A detail as a value of the interchange format. -/
def Detail.toJson : Detail → Json
  | text s => .string s
  | number n => .number n

/-- A diagnosed failure. -/
structure Diagnostic where
  /-- The class of the failure. -/
  code : Code
  /-- The explanation, in words. -/
  explain : String
  /-- Named facts about the failure, in the order in which they are written. -/
  details : List (String × Detail)
  deriving DecidableEq

namespace Diagnostic

/-- A diagnostic from details as they were given, in which keys may repeat. -/
def ofPairs (code : Code) (explain : String) (pairs : List (String × Detail)) : Diagnostic :=
  ⟨code, explain, Members.arrange pairs⟩

/-- The one-line message: code and explanation. -/
def message (d : Diagnostic) : String := d.code.name ++ ": " ++ d.explain

/-- The details as a value of the interchange format. -/
def detailsJson (d : Diagnostic) : Json :=
  .object (d.details.map fun (key, value) => (key, value.toJson))

/-- The message followed by the details, if there are any. -/
def report (d : Diagnostic) : String :=
  if d.details.isEmpty then d.message
  else d.message ++ " | details=" ++ d.detailsJson.compact

end Diagnostic

/-- A failure from outside the domain. -/
inductive Defect where
  /-- A dispatched instruction names no operation. -/
  | unknownOpcode
  /-- An instruction to be written names no operation. -/
  | noToken (name : String)
  /-- A label was asked for by something other than an exact natural number. -/
  | labelId (id : Number)
  /-- A literal was asked for by something other than an integer. -/
  | notIntegral (value : Number)
  /-- A machine of that name was never created. -/
  | noMachine (name : String)
  /-- The instruction budget of a run was used up. -/
  | exhausted
  /-- The surroundings failed. -/
  | external (kind message : String)
  deriving DecidableEq

/-- The wording of a defect. -/
def Defect.message : Defect → String
  | unknownOpcode => "unknown opcode"
  | noToken name => "no token for " ++ name
  | labelId id => "label id must be a non-negative integer: " ++ id.text
  | notIntegral value =>
    "The number " ++ value.text
      ++ " cannot be converted to a BigInt because it is not an integer"
  | noMachine name => "no machine named " ++ name
  | exhausted => "instruction budget exhausted"
  | external _ message => message

/-- A failure of either class. -/
inductive Error where
  | diagnosed (d : Diagnostic)
  | defect (d : Defect)
  deriving DecidableEq

namespace Error

/-- The wording of a failure. -/
def message : Error → String
  | diagnosed d => d.message
  | defect d => d.message

/-- Turns a diagnosed failure into a result; a defect passes through. -/
def capture {α : Type} : Except Error α → Except Defect (Except Diagnostic α)
  | .ok a => .ok (.ok a)
  | .error (diagnosed d) => .ok (.error d)
  | .error (defect d) => .error d

end Error

/-- The line that reports a result: its failure, or `ok`. -/
def reportResult {α : Type} : Except Diagnostic α → String
  | .ok _ => "ok"
  | .error d => d.report

end StackMachine
