import StackMachine.Instr
import StackMachine.Source.Token
import StackMachine.Text.Digits

/-!
# Compiling source text

Each token of a source text is one instruction: the word of an operation, a literal, or a
label followed by a colon. Anything else is malformed, and the first malformed token is
reported with its place.

A label is a number of the interchange format too, so its digits are rounded as such a
number is, and only an exact one is a label.

## Main definitions

* `Source.literal?` and `Source.label?`: the two classes of tokens with a value.
* `Token.compile`: the instruction of one token.
* `Source.compile`: the program of a source text.
-/

namespace StackMachine

namespace Source

/-- The value of a literal: digits after an optional sign, within sixty-four bits. -/
def literal? (text : String) : Option Int :=
  match Text.integer? text.toList with
  | some v => if Word.InRange v then some v else none
  | none => none

/-- The digits of a label: what stands before a final colon, after an optional plus sign. -/
def labelDigits? (cs : List Char) : Option (List Char) :=
  let body := match cs with
    | '+' :: rest => rest
    | cs => cs
  if body.getLast? = some ':' then some body.dropLast else none

/-- The number of a label, if it is exact. -/
def label? (text : String) : Option Nat := do
  let digits ← labelDigits? text.toList
  let n ← Text.natural? digits
  (Number.nearest false n 1).safeNat?

end Source

/-- A word that is no instruction, with the place that is reported for it. The tokens of a
source text are at natural numbers; a caller with a word of its own may report any place. -/
structure BadToken where
  /-- The word. -/
  text : String
  /-- How many tokens come before it. -/
  index : Number
  /-- Its line. -/
  line : Number
  /-- Its column. -/
  column : Number
  deriving DecidableEq

/-- A token of a source text as one that is no instruction. -/
def Token.bad (t : Token) : BadToken := ⟨t.text, .ofNat t.index, .ofNat t.line, .ofNat t.column⟩

/-- The diagnosis of a word that is no instruction. -/
def BadToken.diagnostic (b : BadToken) : Diagnostic where
  code := .token
  explain :=
    "malformed token '" ++ b.text ++ "' at " ++ b.line.text ++ ":" ++ b.column.text
  details :=
    [("token", .text b.text), ("index", .number b.index), ("line", .number b.line),
      ("column", .number b.column)]

/-- The instruction that a word stands for, if it stands for one. -/
def Instr.ofToken? (text : String) : Option Instr :=
  match Opcode.ofToken? text with
  | some op => some (.bare op)
  | none =>
    match Source.literal? text with
    | some v => some (.lit v)
    | none => (Source.label? text).map .label

/-- The instruction of a word, or what is reported of it if there is none. -/
def Instr.ofTokenOr (text : String) (report : BadToken) : Except BadToken Instr :=
  match Instr.ofToken? text with
  | some ins => .ok ins
  | none => .error report

/-- The instruction of a token. -/
def Token.compile (t : Token) : Except BadToken Instr := Instr.ofTokenOr t.text t.bad

/-- The program of a source text, or its first malformed token. -/
def Source.compile (source : String) : Except BadToken Program :=
  (Source.tokens source).mapM Token.compile

end StackMachine
