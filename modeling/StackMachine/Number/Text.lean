import StackMachine.Number

/-!
# The text of a number

A number is written with the fewest decimal digits that read back as itself; of several
such decimals the nearest one is taken, and of two equally near ones the even one. The
digits are then laid out positionally while the leading digit stands between the sixth
place after the point and the twenty-first before it, and with an exponent otherwise.

## Main definitions

* `Number.shortest`: the digits and the exponent.
* `Decimal.text`: the layout.
* `Number.text`: the two together, with the names of the values that are not finite.

## Main results

* `Number.text_ofNat`: a small natural number is written by its digits.
-/

namespace StackMachine

/-- The decimal `digits * 10 ^ exponent`. -/
structure Decimal where
  /-- The digits, read as a natural number. -/
  digits : Nat
  /-- The power of ten that they are multiplied by. -/
  exponent : Int

namespace Number

/-! ### The fewest digits -/

/-- The place of the leading digit of `n / d`, for positive `n` and `d`: the least `p`
such that `n / d` is below `10 ^ p`. -/
def leadingPlace (n d : Nat) : Int :=
  let guess : Int := (decimalLength n : Int) - (decimalLength d : Int)
  if d * Nat.pow 10 guess.toNat ≤ n * Nat.pow 10 (-guess).toNat then guess + 1 else guess

/-- The multiple of `10 ^ exponent` that reads back as the positive `value`, if one of its
two neighbours does: the nearer one when both do, the even one when both are as near. -/
def onGrid? (value : Rat) (exponent : Int) : Option Decimal :=
  let n := value.num.toNat * Nat.pow 10 (-exponent).toNat
  let d := value.den * Nat.pow 10 exponent.toNat
  let below := n / d
  let closer := divNearest n d
  let other := if closer = below then below + 1 else below
  if ofDecimal false closer exponent = finite value then some ⟨closer, exponent⟩
  else if ofDecimal false other exponent = finite value then some ⟨other, exponent⟩
  else none

/-- The decimal that equals the positive `value`, whose denominator is a power of two. -/
def exactly (value : Rat) : Decimal :=
  let places := value.den.log2
  ⟨value.num.toNat * Nat.pow 5 places, -(places : Int)⟩

/-- The shortest decimal that reads back as the positive `value`. The grids of one, two, up
to seventeen digits are tried in turn; a value that none of them holds is not in binary64
and is written exactly. -/
def shortest (value : Rat) : Decimal :=
  let place := leadingPlace value.num.toNat value.den
  ((List.range 17).findSome? fun (k : Nat) => onGrid? value (place - 1 - k)).getD
    (exactly value)

end Number

namespace Decimal

/-! ### Layout -/

/-- The digits without the zeros at their end. -/
def significand (d : Decimal) : List Char :=
  ((Nat.toDigits 10 d.digits).reverse.dropWhile (· == '0')).reverse

/-- The place of the point, counted from the left end of the digits. -/
def point (d : Decimal) : Int := (Nat.toDigits 10 d.digits).length + d.exponent

/-- The exponent part: a mark, a sign, and the magnitude. -/
def exponentText (e : Int) : List Char :=
  'e' :: (if e < 0 then '-' else '+') :: Nat.toDigits 10 e.natAbs

/-- The text of a positive decimal. -/
def text (d : Decimal) : String :=
  let digits := d.significand
  let length : Int := digits.length
  let point := d.point
  String.ofList <|
    if 0 < point ∧ point ≤ 21 then
      if length ≤ point then digits ++ List.replicate (point - length).toNat '0'
      else digits.take point.toNat ++ '.' :: digits.drop point.toNat
    else if -6 < point ∧ point ≤ 0 then
      '0' :: '.' :: (List.replicate (-point).toNat '0' ++ digits)
    else
      match digits with
      | first :: second :: rest => first :: '.' :: second :: rest ++ exponentText (point - 1)
      | _ => digits ++ exponentText (point - 1)

end Decimal

/-- The text of a number. An integer whose magnitude is at most `Number.greatestSafe` is
its own shortest decimal and is written as such. -/
def Number.text : Number → String
  | .finite v =>
    if v.den = 1 ∧ v.num.natAbs ≤ Number.greatestSafe then toString v.num
    else if v.num < 0 then "-" ++ (Number.shortest (-v)).text
    else (Number.shortest v).text
  | .infinite true => "-Infinity"
  | .infinite false => "Infinity"
  | .nan => "NaN"

/-- A natural number up to `Number.greatestSafe` is written by its digits. -/
theorem Number.text_ofNat {n : Nat} (h : n ≤ Number.greatestSafe) :
    (Number.ofNat n).text = toString n := by
  simp only [Number.ofNat, Number.ofInt, Number.text, Rat.ofInt, Int.natAbs_natCast, h, and_self,
    if_true]
  rfl

end StackMachine
