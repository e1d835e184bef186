import StackMachine.Json
import StackMachine.Number.Text

/-!
# Writing JSON

Two layouts: `Json.compact` writes no blanks at all, and `Json.pretty` puts each item and
member on a line of its own, indented by two spaces a level. In strings only the quote, the
backslash and the control characters are escaped.
-/

namespace StackMachine.Json

/-- The text of a character inside a string. -/
def escape (c : Char) : String :=
  match c with
  | '"' => "\\\""
  | '\\' => "\\\\"
  | '\n' => "\\n"
  | '\r' => "\\r"
  | '\t' => "\\t"
  | c =>
    let n := c.toNat
    if n = 0x08 then "\\b"
    else if n = 0x0C then "\\f"
    else if n < 0x20 then
      "\\u00" ++ String.ofList [Nat.digitChar (n / 16), Nat.digitChar (n % 16)]
    else c.toString

/-- A string between quotes. -/
def quote (s : String) : String := "\"" ++ String.join (s.toList.map escape) ++ "\""

/-- The text of a number; what is not finite has none in the format and is written as the
null value. -/
def numeral : Number → String
  | .finite v => (Number.finite v).text
  | _ => "null"

mutual

/-- The text of a value without blanks. -/
def compact : Json → String
  | .null => "null"
  | .bool b => if b then "true" else "false"
  | .number n => numeral n
  | .string s => quote s
  | .array items => "[" ++ ",".intercalate (compactItems items) ++ "]"
  | .object members => "\x7b" ++ ",".intercalate (compactMembers members) ++ "\x7d"

/-- The texts of items. -/
def compactItems : List Json → List String
  | [] => []
  | item :: rest => compact item :: compactItems rest

/-- The texts of members. -/
def compactMembers : List (String × Json) → List String
  | [] => []
  | (key, value) :: rest => (quote key ++ ":" ++ compact value) :: compactMembers rest

end

/-- A line break followed by the indentation of a level. -/
def newline (level : Nat) : String := "\n" ++ String.ofList (List.replicate (2 * level) ' ')

/-- Elements between brackets, one a line; nothing between them if there is none. -/
def block (opening closing : String) (level : Nat) (elements : List String) : String :=
  match elements with
  | [] => opening ++ closing
  | _ =>
    opening ++ newline (level + 1) ++ ("," ++ newline (level + 1)).intercalate elements
      ++ newline level ++ closing

mutual

/-- The text of a value that stands at a level of indentation. -/
def prettyAt (level : Nat) : Json → String
  | .null => "null"
  | .bool b => if b then "true" else "false"
  | .number n => numeral n
  | .string s => quote s
  | .array items => block "[" "]" level (prettyItems (level + 1) items)
  | .object members => block "\x7b" "\x7d" level (prettyMembers (level + 1) members)

/-- The texts of items at a level. -/
def prettyItems (level : Nat) : List Json → List String
  | [] => []
  | item :: rest => prettyAt level item :: prettyItems level rest

/-- The texts of members at a level. -/
def prettyMembers (level : Nat) : List (String × Json) → List String
  | [] => []
  | (key, value) :: rest =>
    (quote key ++ ": " ++ prettyAt level value) :: prettyMembers level rest

end

/-- The text of a value, one item or member a line. -/
def pretty (value : Json) : String := prettyAt 0 value

end StackMachine.Json
