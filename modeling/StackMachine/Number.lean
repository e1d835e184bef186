/-!
# Binary64 numbers

Interchange text carries its numbers in binary64. This module holds such a number by its
exact rational value and reads decimals into it. No sign of zero is kept, because nothing
the machine prints depends on it.

Rounding works in natural numbers throughout: a positive quotient `n / d` is brought to a
whole multiple of the unit in the last place by one integer division, whose remainder
decides the direction.

## Main definitions

* `Number`: a finite value, an infinity, or no number at all.
* `Number.nearest`: the binary64 number nearest to a quotient, ties going to even.
* `Number.ofDecimal`: the number that a decimal with an exponent denotes.
* `Number.safeNat?`: the natural numbers up to `2 ^ 53 - 1`, below which every integer is
  represented exactly.
-/

namespace StackMachine

/-- A number in binary64. -/
inductive Number where
  /-- A finite number, by its exact value. -/
  | finite (value : Rat)
  /-- An infinity, negative or positive. -/
  | infinite (negative : Bool)
  /-- The result of an undefined operation. -/
  | nan
  deriving DecidableEq

namespace Number

instance : Inhabited Number := ⟨nan⟩

/-- An integer as a number. It is exact, so it stands for what binary64 holds only while
the integer is at most `greatestSafe` in magnitude. -/
def ofInt (v : Int) : Number := finite (Rat.ofInt v)

/-- A natural number as a number. -/
def ofNat (n : Nat) : Number := ofInt n

/-- The greatest `n` such that every integer up to `n` is exact: `2 ^ 53 - 1`. -/
def greatestSafe : Nat := 9007199254740991

/-! ### Rounding -/

/-- The quotient `n / d` rounded to the nearest natural number, a tie going to the even
one. -/
def divNearest (n d : Nat) : Nat :=
  let quotient := n / d
  let twice := 2 * (n % d)
  if twice < d then quotient
  else if d < twice then quotient + 1
  else if quotient % 2 = 0 then quotient
  else quotient + 1

/-- The exponent of the greatest power of two that is at most `n / d`, for positive `n`
and `d`. The difference of the two logarithms is that exponent or the one above it. -/
def floorLog (n d : Nat) : Int :=
  let guess : Int := (n.log2 : Int) - (d.log2 : Int)
  if d <<< guess.toNat ≤ n <<< (-guess).toNat then guess else guess - 1

/-- The exponent of the unit in the last place of a number near `n / d`: fifty-two places
below its leading bit, but never below the least unit there is. -/
def unitExponent (n d : Nat) : Int :=
  let e := floorLog n d - 52
  if e < -1074 then -1074 else e

/-- The number nearest to `n / d`, or to its negative; a tie goes to the even multiple of
the unit in the last place, and what would reach `2 ^ 1024` is infinite. -/
def nearest (negative : Bool) (n d : Nat) : Number :=
  let e := unitExponent n d
  let magnitude := divNearest (n <<< (-e).toNat) (d <<< e.toNat) <<< e.toNat
  if 1 <<< 1024 ≤ magnitude then infinite negative
  else finite (mkRat (if negative then -(magnitude : Int) else magnitude) (1 <<< (-e).toNat))

/-! ### Decimals -/

/-- How many decimal digits it takes to write `n`. -/
def decimalLength (n : Nat) : Nat := (Nat.toDigits 10 n).length

/-- The number nearest to `digits * 10 ^ exponent`, or to its negative. A decimal whose
magnitude lies far outside the finite range is settled by the place of its leading digit
alone, so that an exponent of any size is read at once. -/
def ofDecimal (negative : Bool) (digits : Nat) (exponent : Int) : Number :=
  let place := (decimalLength digits : Int) + exponent
  if digits = 0 ∨ place < -330 then finite (mkRat 0 1)
  else if 400 < place then infinite negative
  else
    nearest negative (digits * Nat.pow 10 exponent.toNat) (Nat.pow 10 (-exponent).toNat)

/-! ### Integers -/

/-- The integer that a number is, if it is one. -/
def toInt? : Number → Option Int
  | finite v => if v.den = 1 then some v.num else none
  | infinite _ => none
  | nan => none

/-- The natural number that a number is, if it is one and at most `greatestSafe`. -/
def safeNat? (x : Number) : Option Nat :=
  match x.toInt? with
  | some (.ofNat n) => if n ≤ greatestSafe then some n else none
  | _ => none

/-- Whether a number is less than zero. -/
def isNegative : Number → Bool
  | finite v => v.num < 0
  | infinite negative => negative
  | nan => false

/-- Whether a number is greater than a natural number. -/
def exceeds (x : Number) (n : Nat) : Bool :=
  match x with
  | finite v => (n : Int) * v.den < v.num
  | infinite negative => !negative
  | nan => false

/-- The sign of an integer. -/
theorem isNegative_ofInt {v : Int} : (ofInt v).isNegative = true ↔ v < 0 := decide_eq_true_iff

/-- Between natural numbers this is the usual order. -/
theorem exceeds_ofNat {m n : Nat} : (ofNat m).exceeds n = true ↔ n < m := by
  simp [ofNat, ofInt, exceeds, Rat.ofInt]

end StackMachine.Number
