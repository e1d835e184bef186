import StackMachine.Json.Writer

/-!
# Schemas

A schema describes values of the interchange format and says what each of them stands for.
Schemas are put together from those of single values, so that a form is written down once
and its reader is derived from it.

A value that does not fit is refused with all issues found, in the order in which they were
found. A refusal is *fatal* when the value is of another kind altogether. It is not when
only a check on the value failed or an object has stray members: a choice between schemas
then reports the issues of the schema that came so close.

## Main definitions

* `Verdict`: what a schema says about a value.
* `Schema`: a schema, by its verdict on each value.
* `Fields`: a schema for some members of an object.
* `Schema.object`, `Schema.strict`, `Schema.array`, `Schema.union`: composed schemas.
-/

namespace StackMachine

/-! ### Verdicts -/

/-- What is wrong with a value. -/
structure Issue where
  /-- The place in the value, from the root downwards. -/
  path : List String
  /-- The wording. -/
  message : String
  deriving DecidableEq

/-- The issues with a value, in the order in which they were found. There is at least one. -/
structure Issues where
  /-- The first issue. -/
  first : Issue
  /-- All others. -/
  later : List Issue
  deriving DecidableEq

namespace Issues

/-- A single issue, with the value itself. -/
def one (message : String) : Issues := ⟨⟨[], message⟩, []⟩

/-- Issues followed by others. -/
def append (a b : Issues) : Issues := ⟨a.first, a.later ++ b.first :: b.later⟩

/-- Issues with a value, as issues with what holds it under a key. -/
def under (key : String) (a : Issues) : Issues :=
  let deepen (issue : Issue) : Issue := { issue with path := key :: issue.path }
  ⟨deepen a.first, a.later.map deepen⟩

end Issues

/-- What a schema says about a value. -/
inductive Verdict (α : Type) where
  /-- The value is accepted and stands for this. -/
  | valid (meaning : α)
  /-- The value is refused. -/
  | invalid (fatal : Bool) (issues : Issues)

namespace Verdict

variable {α β : Type}

/-- A fatal refusal with a single issue. -/
def fatal (message : String) : Verdict α := invalid true (.one message)

/-- A verdict with the meaning rewritten. -/
def map (f : α → β) : Verdict α → Verdict β
  | valid a => valid (f a)
  | invalid fatal issues => invalid fatal issues

/-- Both of two verdicts: what either of them refuses is refused, with the issues of both. -/
def both : Verdict α → Verdict β → Verdict (α × β)
  | valid a, valid b => valid (a, b)
  | valid _, invalid fatal issues => invalid fatal issues
  | invalid fatal issues, valid _ => invalid fatal issues
  | invalid fatal issues, invalid fatal' issues' =>
    invalid (fatal || fatal') (issues.append issues')

/-- A verdict on a value, as one on what holds it under a key. -/
def under (key : String) : Verdict α → Verdict α
  | valid a => valid a
  | invalid fatal issues => invalid fatal (issues.under key)

/-- The first of several verdicts that accepts; else the first refusal that is not fatal, if
there is one. The one that was met before these verdicts is given. -/
def choose (near : Option Issues) : List (Verdict α) → Verdict α
  | [] =>
    match near with
    | some issues => invalid false issues
    | none => fatal "Invalid input"
  | valid a :: _ => valid a
  | invalid true _ :: rest => choose near rest
  | invalid false issues :: rest => choose (some (near.getD issues)) rest

end Verdict

/-! ### Schemas of single values -/

/-- A schema: its verdict on each value, or on a value that is missing. -/
structure Schema (α : Type) where
  /-- The verdict. -/
  parse : Option Json → Verdict α

/-- A check on values of the right kind. -/
structure Check (α : Type) where
  /-- Whether a value passes. -/
  holds : α → Bool
  /-- The wording of a failure. -/
  message : String

/-- The verdict of checks on a value. All of them are made, and no failure is fatal. -/
def Check.verdict {α : Type} (checks : List (Check α)) (a : α) : Verdict α :=
  match checks.filter fun check => !check.holds a with
  | [] => .valid a
  | check :: rest => .invalid false ⟨⟨[], check.message⟩, rest.map fun check => ⟨[], check.message⟩⟩

namespace Schema

variable {α β : Type}

/-- A value of another kind than the expected one, or a missing one, is refused. -/
def mismatch (expected : String) : Option Json → Verdict α
  | none => .fatal "Required"
  | some value => .fatal ("Expected " ++ expected ++ ", received " ++ value.kind)

/-- Names in quotes, with something between them. -/
def listed (separator : String) (names : List String) : String :=
  separator.intercalate (names.map fun name => "'" ++ name ++ "'")

/-- A single string. -/
def literal (text : String) : Schema String where
  parse
    | some (.string s) => if s = text then .valid s else other
    | _ => other
where
  /-- The refusal of anything else, a missing value included. -/
  other : Verdict String := .fatal ("Invalid literal value, expected " ++ Json.quote text)

/-- One of several strings. -/
def enumeration (names : List String) : Schema String where
  parse
    | some (.string s) =>
      if s ∈ names then .valid s
      else .fatal ("Invalid enum value. Expected " ++ listed " | " names ++
        ", received '" ++ s ++ "'")
    | input => mismatch (listed " | " names) input

/-- A string that passes some checks. -/
def string (checks : List (Check String)) : Schema String where
  parse
    | some (.string s) => Check.verdict checks s
    | input => mismatch "string" input

/-- A number that passes some checks. -/
def number (checks : List (Check Number)) : Schema Number where
  parse
    | some (.number x) => Check.verdict checks x
    | input => mismatch "number" input

/-- What a value stands for, rewritten. -/
def map (f : α → β) (s : Schema α) : Schema β where
  parse input := (s.parse input).map f

/-- What a value stands for, rewritten where that is possible. It is not tried on a value that
is refused already. -/
def transform (f : α → Except String β) (s : Schema α) : Schema β where
  parse input :=
    match s.parse input with
    | .invalid _ issues => .invalid true issues
    | .valid a =>
      match f a with
      | .ok b => .valid b
      | .error message => .invalid false (.one message)

/-! ### Schemas of composed values -/

/-- The verdicts on items, the first of which has the given index. -/
def items (s : Schema α) (index : Nat) : List Json → Verdict (List α)
  | [] => .valid []
  | item :: rest =>
    (((s.parse (some item)).under (toString index)).both (s.items (index + 1) rest)).map
      fun (a, as) => a :: as

/-- A list. -/
def array (s : Schema α) : Schema (List α) where
  parse
    | some (.array list) => s.items 0 list
    | input => mismatch "array" input

/-- The first schema of several that fits. -/
def union (options : List (Schema α)) : Schema α where
  parse input := .choose none (options.map fun s => s.parse input)

end Schema

/-- A schema for some members of an object. -/
structure Fields (α : Type) where
  /-- The keys of these members. -/
  keys : List String
  /-- The verdict on them, given all members. -/
  parse : List (String × Json) → Verdict α

namespace Fields

variable {α β : Type}

/-- The member under a key. -/
def field (key : String) (s : Schema α) : Fields α where
  keys := [key]
  parse members := (s.parse (members.lookup key)).under key

/-- Members besides others. -/
def and (a : Fields α) (b : Fields β) : Fields (α × β) where
  keys := a.keys ++ b.keys
  parse members := (a.parse members).both (b.parse members)

/-- The verdict on members beyond given ones. -/
def stray (keys : List String) (members : List (String × Json)) : Verdict Unit :=
  match (members.map (·.1)).filter fun key => !keys.contains key with
  | [] => .valid ()
  | strays =>
    .invalid false (.one ("Unrecognized key(s) in object: " ++ Schema.listed ", " strays))

end Fields

namespace Schema

variable {α : Type}

/-- An object with certain members, whatever others it has. -/
def object (fields : Fields α) : Schema α where
  parse
    | some (.object members) => fields.parse members
    | input => mismatch "object" input

/-- An object with certain members and no others. -/
def strict (fields : Fields α) : Schema α where
  parse
    | some (.object members) =>
      ((fields.parse members).both (Fields.stray fields.keys members)).map (·.1)
    | input => mismatch "object" input

end Schema

end StackMachine
