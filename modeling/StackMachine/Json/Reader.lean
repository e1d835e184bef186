import StackMachine.Json
import StackMachine.Text.Digits

/-!
# Reading JSON

A strict reader: blanks are the four of the format, numbers have no leading zeros, strings
hold no raw control characters, and nothing follows the value but blanks.

The reader descends by recursion on a budget. Each nested value takes up at least one
character and at most two units of the budget, so a budget of twice the length of the text
is always enough, and `Json.parse?` shows none.

## Main definitions

* `Json.parse?`: the value that a text spells, if it spells one.
-/

namespace StackMachine.Json

/-- Whether a character may stand between the tokens of the format. -/
def isSpace (c : Char) : Bool := c == ' ' || c == '\t' || c == '\n' || c == '\r'

/-- A text without the blanks at its beginning. -/
def skipSpace (cs : List Char) : List Char := cs.dropWhile isSpace

/-! ### Strings -/

/-- The value of a hexadecimal digit. -/
def hexDigit? (c : Char) : Option Nat :=
  if '0' ≤ c ∧ c ≤ '9' then some (c.toNat - '0'.toNat)
  else if 'a' ≤ c ∧ c ≤ 'f' then some (c.toNat - 'a'.toNat + 10)
  else if 'A' ≤ c ∧ c ≤ 'F' then some (c.toNat - 'A'.toNat + 10)
  else none

/-- The value of four hexadecimal digits. -/
def hexUnit? (a b c d : Char) : Option Nat := do
  let a ← hexDigit? a
  let b ← hexDigit? b
  let c ← hexDigit? c
  let d ← hexDigit? d
  return ((a * 16 + b) * 16 + c) * 16 + d

/-- The code that a one-letter escape stands for. -/
def escaped? : Char → Option Nat
  | '"' => some 0x22
  | '\\' => some 0x5C
  | '/' => some 0x2F
  | 'b' => some 0x08
  | 'f' => some 0x0C
  | 'n' => some 0x0A
  | 'r' => some 0x0D
  | 't' => some 0x09
  | _ => none

/-- The codes of a string up to its closing quote, and the text after that quote. A
character that stands for itself has its own code; an escape has the code of one unit of
sixteen bits, which may be half of a surrogate pair. -/
def stringCodes? : List Char → Option (List Nat × List Char)
  | [] => none
  | '"' :: rest => some ([], rest)
  | '\\' :: 'u' :: a :: b :: c :: d :: rest => do
    let code ← hexUnit? a b c d
    let (codes, rest) ← stringCodes? rest
    return (code :: codes, rest)
  | '\\' :: c :: rest => do
    let code ← escaped? c
    let (codes, rest) ← stringCodes? rest
    return (code :: codes, rest)
  | c :: rest =>
    if c.toNat < 0x20 ∨ c = '\\' then none
    else do
      let (codes, rest) ← stringCodes? rest
      return (c.toNat :: codes, rest)

/-- Whether a code is the first half of a surrogate pair. -/
def isHighSurrogate (n : Nat) : Bool := 0xD800 ≤ n && n ≤ 0xDBFF

/-- Whether a code is the second half of a surrogate pair. -/
def isLowSurrogate (n : Nat) : Bool := 0xDC00 ≤ n && n ≤ 0xDFFF

/-- The character of a code that is no part of a pair. Half a pair has none and is
replaced. -/
def ofCode (n : Nat) : Char :=
  if isHighSurrogate n || isLowSurrogate n then '\ufffd' else Char.ofNat n

/-- The characters of a sequence of codes, surrogate pairs joined. -/
def joinCodes : List Nat → List Char
  | [] => []
  | [n] => [ofCode n]
  | n :: m :: rest =>
    if isHighSurrogate n && isLowSurrogate m then
      Char.ofNat (0x10000 + (n - 0xD800) * 0x400 + (m - 0xDC00)) :: joinCodes rest
    else ofCode n :: joinCodes (m :: rest)

/-- The string that follows an opening quote, and the text after its closing quote. -/
def string? (cs : List Char) : Option (String × List Char) :=
  (stringCodes? cs).map fun (codes, rest) => (String.ofList (joinCodes codes), rest)

/-! ### Numbers -/

/-- The digits at the beginning of a text, of which there must be one, and what follows. -/
def digits? (cs : List Char) : Option (List Char × List Char) :=
  let ds := cs.takeWhile Char.isDigit
  if ds = [] then none else some (ds, cs.dropWhile Char.isDigit)

/-- The whole part of a number: digits without a leading zero. -/
def wholePart? (cs : List Char) : Option (List Char × List Char) := do
  let (ds, rest) ← digits? cs
  match ds with
  | '0' :: _ :: _ => none
  | _ => some (ds, rest)

/-- The digits after the point, if a point follows. -/
def fraction? : List Char → Option (List Char × List Char)
  | '.' :: cs => digits? cs
  | cs => some ([], cs)

/-- The exponent, if one follows. -/
def exponent? : List Char → Option (Int × List Char)
  | c :: cs =>
    if c = 'e' ∨ c = 'E' then
      match cs with
      | '-' :: cs => (digits? cs).map fun (ds, rest) => (-(Nat.ofDigitChars 10 ds 0 : Int), rest)
      | '+' :: cs => (digits? cs).map fun (ds, rest) => ((Nat.ofDigitChars 10 ds 0 : Int), rest)
      | cs => (digits? cs).map fun (ds, rest) => ((Nat.ofDigitChars 10 ds 0 : Int), rest)
    else some (0, c :: cs)
  | [] => some (0, [])

/-- The magnitude of a number, under a given sign. -/
def magnitude? (negative : Bool) (cs : List Char) : Option (Number × List Char) := do
  let (whole, rest) ← wholePart? cs
  let (fraction, rest) ← fraction? rest
  let (exponent, rest) ← exponent? rest
  let digits := Nat.ofDigitChars 10 (whole ++ fraction) 0
  return (Number.ofDecimal negative digits (exponent - fraction.length), rest)

/-- A number at the beginning of a text. -/
def number? : List Char → Option (Number × List Char)
  | '-' :: cs => magnitude? true cs
  | cs => magnitude? false cs

/-! ### Values -/

mutual

/-- A value at the beginning of a text, and the text after it. -/
def value? : Nat → List Char → Option (Json × List Char)
  | 0, _ => none
  | budget + 1, cs =>
    match skipSpace cs with
    | 'n' :: 'u' :: 'l' :: 'l' :: rest => some (.null, rest)
    | 't' :: 'r' :: 'u' :: 'e' :: rest => some (.bool true, rest)
    | 'f' :: 'a' :: 'l' :: 's' :: 'e' :: rest => some (.bool false, rest)
    | '"' :: rest => (string? rest).map fun (s, rest) => (.string s, rest)
    | '[' :: rest =>
      match skipSpace rest with
      | ']' :: rest => some (.array [], rest)
      | rest => (items? budget rest).map fun (items, rest) => (.array items, rest)
    | '\x7b' :: rest =>
      match skipSpace rest with
      | '\x7d' :: rest => some (.object [], rest)
      | rest =>
        (members? budget rest).map fun (pairs, rest) => (.object (Members.arrange pairs), rest)
    | rest => (number? rest).map fun (n, rest) => (.number n, rest)

/-- The items of an array that is not empty, up to its closing bracket. -/
def items? : Nat → List Char → Option (List Json × List Char)
  | 0, _ => none
  | budget + 1, cs => do
    let (item, rest) ← value? budget cs
    match skipSpace rest with
    | ',' :: rest =>
      let (items, rest) ← items? budget rest
      return (item :: items, rest)
    | ']' :: rest => return ([item], rest)
    | _ => none

/-- The members of an object that is not empty, up to its closing brace, as written. -/
def members? : Nat → List Char → Option (List (String × Json) × List Char)
  | 0, _ => none
  | budget + 1, cs =>
    match skipSpace cs with
    | '"' :: rest => do
      let (key, rest) ← string? rest
      match skipSpace rest with
      | ':' :: rest =>
        let (value, rest) ← value? budget rest
        match skipSpace rest with
        | ',' :: rest =>
          let (members, rest) ← members? budget rest
          return ((key, value) :: members, rest)
        | '\x7d' :: rest => return ([(key, value)], rest)
        | _ => none
      | _ => none
    | _ => none

end

/-- The value that a whole text spells. -/
def parse? (text : String) : Option Json :=
  let cs := text.toList
  match value? (2 * cs.length + 1) cs with
  | some (value, rest) => if skipSpace rest = [] then some value else none
  | none => none

end StackMachine.Json
