import StackMachine.Text.Line

/-!
# Tokens of source text

A source text is a sequence of tokens, the words of its lines. Each token carries its place
in the sequence, counted from `0`, and its line and column, counted from `1`.
-/

namespace StackMachine

/-- A word of source text with its place. -/
structure Token where
  /-- The characters of the word. -/
  text : String
  /-- How many tokens come before it. -/
  index : Nat
  /-- Its line. -/
  line : Nat
  /-- The column of its first character. -/
  column : Nat
  deriving DecidableEq, Repr

namespace Source

/-- The words of a text, each with its line; the first line has the given number. -/
def lexemesFrom (line : Nat) : List (List Char) → List (Nat × Text.Lexeme)
  | [] => []
  | cs :: rest => (Text.lexemes 1 cs).map (fun w => (line, w)) ++ lexemesFrom (line + 1) rest

/-- The tokens of words, the first of which has the given index. -/
def enumerate (index : Nat) : List (Nat × Text.Lexeme) → List Token
  | [] => []
  | (line, w) :: rest =>
    ⟨String.ofList w.chars, index, line, w.column⟩ :: enumerate (index + 1) rest

/-- The tokens of a source text. -/
def tokens (source : String) : List Token :=
  enumerate 0 (lexemesFrom 1 (Text.lines source.toList))

end Source

end StackMachine
