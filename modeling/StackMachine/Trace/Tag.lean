import StackMachine.Diagnostic

/-!
# Trace tags

A traced run raises a tag for every label it binds, every jump it takes, every line it
prints, and for the way it ends. Tags are made for the interchange format: positions are
numbers of the format, and values travel as decimal text.
-/

namespace StackMachine

/-- Why a run came to its end without a fault. -/
inductive Halt where
  /-- It reached the end of the program. -/
  | finished
  /-- An instruction found too few operands. -/
  | underflow
  /-- A reason that is not the machine's own, by its name. -/
  | other (name : String)
  deriving DecidableEq, Repr

/-- The name of a reason. -/
def Halt.name : Halt → String
  | finished => "end"
  | underflow => "underflow"
  | other name => name

/-- The reason of a given name. -/
def Halt.ofName (name : String) : Halt :=
  if name = "end" then finished else if name = "underflow" then underflow else other name

/-- What a traced run raises. -/
inductive Tag where
  /-- A label was bound to an instruction index. -/
  | bind (label index : Number)
  /-- A jump to a label was taken. -/
  | jump (source target label : Number)
  /-- A line was printed. -/
  | emit (ip : Number) (value : String)
  /-- The run came to its end. -/
  | halt (reason : Halt) (ip : Number) (value : Option String)
  /-- The run met a diagnosed failure. -/
  | fault (code : Code) (ip : Number)
  deriving DecidableEq

namespace Tag

/-- A tag as a value of the interchange format. -/
def toJson : Tag → Json
  | bind label index =>
    .object [("kind", .string "Bind"), ("label", .number label), ("index", .number index)]
  | jump source target label =>
    .object [("kind", .string "Jump"), ("from", .number source), ("to", .number target),
      ("label", .number label)]
  | emit ip value =>
    .object [("kind", .string "Emit"), ("ip", .number ip), ("value", .string value)]
  | halt reason ip value =>
    .object [("kind", .string "Halt"), ("reason", .string reason.name), ("ip", .number ip),
      ("value", value.elim .null .string)]
  | fault code ip =>
    .object [("kind", .string "Fault"), ("code", .string code.name), ("ip", .number ip)]

/-- The line that shows a tag, without its end. -/
def text (t : Tag) : String := t.toJson.compact

end Tag

/-- The tag of a diagnosed failure that was met while an instruction was dispatched. The
details of the failure may name another instruction by a number. -/
def Diagnostic.tag (d : Diagnostic) (ip : Nat) : Tag :=
  match d.details.lookup "ip" with
  | some (.number n) => .fault d.code n
  | _ => .fault d.code (.ofNat ip)

end StackMachine
