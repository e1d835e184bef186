import StackMachine.Instr
import StackMachine.Json.Reader
import StackMachine.Schema
import StackMachine.Text.Digits

/-!
# Bytecode

The stored form of a program in the interchange format: an object with a version and a
list of records, one for each instruction. Literals are decimal strings, because a number
of the format cannot hold sixty-four bits.

The form is written down as a schema, from which the reader is derived. A text that does not
fit is refused with the first issue that the schema finds.

## Main definitions

* `Bytecode.instruction` and `Bytecode.program`: the schemas of a record and of the whole form.
* `Bytecode.Offence`: what is wrong with a text, with its path and its message.
* `Bytecode.Contents`: what a text holds.
* `Bytecode.read`: the contents of a text.
* `Bytecode.write`: the text of a program.
-/

namespace StackMachine.Bytecode

/-- The version of the form. -/
def version : String := "0.1"

/-! ### The schema -/

/-- What a bytecode text holds. -/
structure Contents where
  /-- The version of the form. -/
  version : String
  /-- The program. -/
  program : Program
  deriving DecidableEq

/-- The integer of a decimal string: digits after an optional minus sign. -/
def decimal? (text : String) : Option Int :=
  match text.toList with
  | '+' :: _ => none
  | cs => Text.integer? cs

/-- The word that a decimal string denotes. -/
def word (text : String) : Except String Int :=
  -- only decimal strings get here
  let v := (decimal? text).getD 0
  if Word.InRange v then .ok v else .error (text ++ " does not fit in 64 bits")

/-- A literal, by its decimal string. -/
def literalText : Schema Int :=
  (Schema.string
    [⟨fun text => (decimal? text).isSome, "expected a decimal integer string"⟩]).transform word

/-- The number of a label: a natural number that is exact. -/
def labelNumber : Schema Number :=
  .number [⟨fun x => x.toInt?.isSome, "Expected integer, received float"⟩,
    ⟨fun x => !x.isNegative, "Number must be greater than or equal to 0"⟩,
    ⟨fun x => !x.exceeds Number.greatestSafe,
      "Number must be less than or equal to " ++ toString Number.greatestSafe⟩]

/-- The record of a literal. -/
def literalRecord : Schema Instr :=
  (Schema.strict ((Fields.field "op" (.literal "LIT")).and (.field "value" literalText))).map
    fun (_, v) => .lit v

/-- The record of a label. -/
def labelRecord : Schema Instr :=
  (Schema.strict ((Fields.field "op" (.literal "LABEL")).and (.field "id" labelNumber))).map
    fun (_, x) => .marking x

/-- The record of an operation. -/
def operationRecord : Schema Instr :=
  (Schema.strict (.field "op" (.enumeration (Opcode.all.map Opcode.name)))).map .ofName

/-- The record of an instruction, in one of three shapes. -/
def instruction : Schema Instr := .union [literalRecord, labelRecord, operationRecord]

/-- The form of a program. Other members of the root are of no concern. -/
def program : Schema Contents :=
  (Schema.object ((Fields.field "version" (.literal version)).and
    (.field "instrs" (.array instruction)))).map fun (v, p) => ⟨v, p⟩

/-! ### Offences -/

/-- What is wrong with a text. -/
inductive Offence where
  /-- It is not in the interchange format at all. -/
  | malformed
  /-- Its value does not fit the schema. -/
  | misfit (issue : Issue)
  deriving DecidableEq

namespace Offence

/-- The text of a path. -/
def pathText : List String → String
  | [] => "(root)"
  | parts => ".".intercalate parts

/-- The diagnosis of an offence. What the platform says of a text that is not in the format is
its own matter; it is the complaint. -/
def diagnostic (complaint : String) : Offence → Diagnostic
  | malformed => ⟨.bytecode, "invalid JSON: " ++ complaint, []⟩
  | misfit issue =>
    ⟨.bytecode, pathText issue.path ++ ": " ++ issue.message,
      [("path", .text (pathText issue.path))]⟩

end Offence

/-! ### Reading -/

/-- The contents of a bytecode text, or its first offence. -/
def read (text : String) : Except Offence Contents :=
  match Json.parse? text with
  | none => .error .malformed
  | some value =>
    match program.parse (some value) with
    | .valid contents => .ok contents
    | .invalid _ issues => .error (.misfit issues.first)

/-! ### Writing -/

/-- The record of an instruction. -/
def record : Instr → Json
  | .lit v => .object [("op", .string "LIT"), ("value", .string (toString v))]
  | .label n => .object [("op", .string "LABEL"), ("id", .number (.ofNat n))]
  | .bare op => .object [("op", .string op.name)]
  | .mislabel x => .object [("op", .string "LABEL"), ("id", .number x)]
  | .unknown name => .object [("op", .string name)]

/-- The stored form of records, as a value of the interchange format. -/
def ofRecords (records : List Json) : Json :=
  .object [("version", .string version), ("instrs", .array records)]

/-- The bytecode text of records, which are written as they are. -/
def writeRecords (records : List Json) : String := (ofRecords records).pretty

/-- The bytecode text of a program. -/
def write (program : Program) : String := writeRecords (program.map record)

end StackMachine.Bytecode
