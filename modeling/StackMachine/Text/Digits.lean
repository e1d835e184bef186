/-!
# Decimal digits

Reading of digit strings. Only the ten digits of ASCII count as digits.

## Main definitions

* `Text.natural?`: the value of a non-empty string of digits.
* `Text.integer?`: the value of digits after an optional sign.
-/

namespace StackMachine.Text

/-- The natural number that a non-empty string of digits denotes. -/
def natural? (cs : List Char) : Option Nat :=
  if cs ≠ [] ∧ cs.all Char.isDigit then some (Nat.ofDigitChars 10 cs 0) else none

/-- The integer that a string of digits after an optional sign denotes. -/
def integer? : List Char → Option Int
  | '-' :: cs => (natural? cs).map fun n => -(n : Int)
  | '+' :: cs => (natural? cs).map Int.ofNat
  | cs => (natural? cs).map Int.ofNat

/-- The digits of a natural number read back as it. -/
theorem natural?_toDigits (n : Nat) : natural? (Nat.toDigits 10 n) = some n := by
  have digits : (Nat.toDigits 10 n).all Char.isDigit = true :=
    List.all_eq_true.2 fun _ h => Nat.isDigit_of_mem_toDigits (by omega) (by omega) h
  simp [natural?, digits, Nat.toDigits_ne_nil]

end StackMachine.Text
