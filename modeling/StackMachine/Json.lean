import StackMachine.Number

/-!
# JSON values

The value type of the interchange format. The members of an object are kept in the order
in which they are listed when the object is written or looked through: keys that are
canonical array indices come first and ascend, all others follow in the order of their
first mention, and a repeated key takes its last value.

## Main definitions

* `Json`: a value.
* `Members.arrange`: the member order.
-/

namespace StackMachine

/-- A value of the interchange format. -/
inductive Json where
  | null
  | bool (value : Bool)
  | number (value : Number)
  | string (value : String)
  | array (items : List Json)
  | object (members : List (String × Json))

instance : Inhabited Json := ⟨.null⟩

/-- The name of the kind of a value. -/
def Json.kind : Json → String
  | .null => "null"
  | .bool _ => "boolean"
  | .number _ => "number"
  | .string _ => "string"
  | .array _ => "array"
  | .object _ => "object"

namespace Members

variable {α : Type}

/-- The array index that a key spells canonically, if it spells one: a decimal without
leading zeros, at most `2 ^ 32 - 2`. -/
def index? (key : String) : Option Nat :=
  match key.toList with
  | ['0'] => some 0
  | '0' :: _ => none
  | cs =>
    if cs ≠ [] ∧ cs.all Char.isDigit then
      let n := Nat.ofDigitChars 10 cs 0
      if n ≤ 4294967294 then some n else none
    else none

/-- Gives a key a value: in its place if it has one, else at the end. -/
def put (key : String) (value : α) : List (String × α) → List (String × α)
  | [] => [(key, value)]
  | (k, v) :: rest => if k = key then (k, value) :: rest else (k, v) :: put key value rest

/-- The members of an object, from its pairs as they were written. -/
def arrange (pairs : List (String × α)) : List (String × α) :=
  let merged := pairs.foldl (fun members (k, v) => put k v members) []
  let indexed := merged.filterMap fun (k, v) => (index? k).map fun n => (n, k, v)
  let named := merged.filter fun (k, _) => (index? k).isNone
  (indexed.mergeSort fun a b => a.1 ≤ b.1).map (·.2) ++ named

end Members

end StackMachine
