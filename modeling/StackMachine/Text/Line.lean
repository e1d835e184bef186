import StackMachine.Text.Blank

/-!
# Lines and words

A text is cut into lines, and a line into words. A line ends at a line feed, and a
carriage return directly before that line feed belongs to the line end; any other carriage
return is a blank inside its line. A word is a maximal run of characters that are not
blank. Columns count units of sixteen bits from `1`, so that a character outside the basic
plane takes up two columns.

## Main definitions

* `Text.lines`: the lines of a text, without their ends.
* `Text.lexemes`: the words of a line, with their columns.
-/

namespace StackMachine.Text

/-- How many units of sixteen bits a character takes. -/
def units (c : Char) : Nat := if c.toNat < 0x10000 then 1 else 2

/-- The lines of a text. There is always at least one. -/
def lines : List Char → List (List Char)
  | [] => [[]]
  | '\n' :: rest => [] :: lines rest
  | '\r' :: '\n' :: rest => [] :: lines rest
  | c :: rest =>
    match lines rest with
    | [] => [[c]]
    | line :: more => (c :: line) :: more

/-- A word of a line, with its place. -/
structure Lexeme where
  /-- The column of its first character. -/
  column : Nat
  /-- Its characters. -/
  chars : List Char
  deriving DecidableEq, Repr

/-- The words of a line whose first character stands in the given column. A character that
is not blank joins the word that begins right after it, if there is one. -/
def lexemes (column : Nat) : List Char → List Lexeme
  | [] => []
  | c :: rest =>
    let later := lexemes (column + units c) rest
    if isBlank c then later
    else
      match later with
      | [] => [⟨column, [c]⟩]
      | w :: more =>
        if w.column = column + units c then ⟨column, c :: w.chars⟩ :: more
        else ⟨column, [c]⟩ :: w :: more

end StackMachine.Text
