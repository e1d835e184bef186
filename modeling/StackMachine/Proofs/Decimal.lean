import Mathlib.Data.List.Induction
import Mathlib.Tactic.IntervalCases
import Mathlib.Tactic.Ring
import StackMachine.Number.Text
import StackMachine.Text.Digits

/-!
# Decimal text that reads back

The stored forms write an integer by its decimal digits and read it through a rounding to
binary64 or through a plain digit reader. Both readers get the written integer back: the
digit reader always, and the rounding one as long as the integer has at most fifty-three
bits, because such an integer is a whole multiple of its own unit in the last place.

## Main definitions

* `Text.Numeral` and `Text.Signed`: strings of digits and what they denote, without and with
  a sign.

## Main results

* `Number.nearest_natural`: rounding fixes the natural numbers up to `2 ^ 53 - 1`.
* `Number.safeNat?_nearest`: a natural number above them is rounded to a number above them.
* `Number.ofDecimal_natural`: so a decimal without fraction and exponent denotes them.
* `Text.natural?_eq_some_iff`: the digit reader accepts exactly the numerals.
* `Text.integer?_eq_some_iff`: the integer reader accepts exactly the signed numerals.
* `Text.integer?_toString`: the text of an integer reads back as it.
-/

namespace StackMachine

/-! ### Rounding -/

namespace Number

/-- A whole quotient needs no rounding. -/
theorem divNearest_one (n : Nat) : divNearest n 1 = n := by
  simp [divNearest, Nat.mod_one]

/-- A natural number of at most fifty-three bits is not finer than its unit in the last
place: the unit is a power of two with an exponent that is not positive, and so small
that the number is still less than `2 ^ 1024` units. -/
theorem unitExponent_natural {n : Nat} (h : n ≤ greatestSafe) :
    ∃ k : Nat, k ≤ 53 ∧ unitExponent n 1 = -(k : Int) := by
  have hlog : n.log2 ≤ 52 := by
    by_cases hn : n = 0
    · simp [hn]
    · have hlt : n < 2 ^ 53 := by
        unfold greatestSafe at h
        omega
      have := (Nat.log2_lt hn).2 hlt
      omega
  have hone : Nat.log2 1 = 0 := by decide
  simp only [unitExponent, floorLog, hone]
  split
  · refine ⟨52 - n.log2, by omega, ?_⟩
    split <;> omega
  · refine ⟨53 - n.log2, by omega, ?_⟩
    split <;> omega

/-- **Rounding is exact on safe natural numbers.** -/
theorem nearest_natural {n : Nat} (h : n ≤ greatestSafe) : nearest false n 1 = ofNat n := by
  obtain ⟨k, hk, he⟩ := unitExponent_natural h
  have hsmall : ¬ 1 <<< 1024 ≤ n <<< k := by
    rw [Nat.not_le, Nat.one_shiftLeft, Nat.shiftLeft_eq]
    calc n * 2 ^ k ≤ greatestSafe * 2 ^ 53 :=
          Nat.mul_le_mul h (Nat.pow_le_pow_right (by omega) hk)
      _ < 2 ^ 106 := by decide
      _ ≤ 2 ^ 1024 := Nat.pow_le_pow_right (by omega) (by omega)
  have hvalue : mkRat ((n <<< k : Nat) : Int) (1 <<< k) = Rat.ofInt n := by
    have hpos : 2 ^ k ≠ 0 := (Nat.two_pow_pos k).ne'
    rw [Nat.shiftLeft_eq, Nat.shiftLeft_eq, Nat.cast_mul, Rat.mkRat_mul_right hpos,
      Rat.mkRat_one]
    rfl
  have hunit : (- -(k : Int)).toNat = k := by omega
  have hzero : (-(k : Int)).toNat = 0 := by omega
  simp only [nearest, he, hunit, hzero, Nat.shiftLeft_zero, divNearest_one,
    Bool.false_eq_true, if_false, if_neg hsmall, hvalue]
  rfl

/-- A safe natural number is one of the numbers that a label may have. -/
theorem safeNat?_ofNat {n : Nat} (h : n ≤ greatestSafe) : (ofNat n).safeNat? = some n := by
  simp [safeNat?, ofNat, ofInt, toInt?, Rat.ofInt, h]

/-- A larger natural number is none of them. -/
theorem safeNat?_ofNat_of_lt {n : Nat} (h : greatestSafe < n) : (ofNat n).safeNat? = none := by
  simp [safeNat?, ofNat, ofInt, toInt?, Rat.ofInt, h]

/-- Rounding to the nearest goes no further down than the whole part. -/
theorem div_le_divNearest (n d : Nat) : n / d ≤ divNearest n d := by
  simp only [divNearest]
  split
  · exact Nat.le_refl _
  · split
    · exact Nat.le_succ _
    · split
      · exact Nat.le_refl _
      · exact Nat.le_succ _

/-- A natural number of more than fifty-three bits is a whole number of units in the last
place, and at least `2 ^ 52` of them. -/
theorem unitExponent_large {n : Nat} (h : greatestSafe < n) :
    ∃ k : Nat, 0 < k ∧ unitExponent n 1 = k ∧ 2 ^ 52 ≤ n / 2 ^ k := by
  have hn : n ≠ 0 := by omega
  have hlog : 53 ≤ n.log2 := by
    refine (Nat.le_log2 hn).2 ?_
    unfold greatestSafe at h
    omega
  have hpow : 2 ^ n.log2 ≤ n := Nat.log2_self_le hn
  have hone : Nat.log2 1 = 0 := by decide
  have hfloor : floorLog n 1 = n.log2 := by
    simp only [floorLog, hone, Nat.one_shiftLeft]
    have hneg : (-((n.log2 : Int) - (0 : Nat))).toNat = 0 := by omega
    have hpos : ((n.log2 : Int) - (0 : Nat)).toNat = n.log2 := by omega
    rw [hneg, hpos, Nat.shiftLeft_zero, if_pos hpow]
    omega
  refine ⟨n.log2 - 52, by omega, ?_, ?_⟩
  · simp only [unitExponent, hfloor]
    split <;> omega
  · rw [Nat.le_div_iff_mul_le (Nat.two_pow_pos _), ← Nat.pow_add]
    have hsum : 52 + (n.log2 - 52) = n.log2 := by omega
    rwa [hsum]

/-- **Rounding keeps the safe natural numbers apart from the others**: a natural number is
rounded to a safe one exactly if it is safe, and then to itself. -/
theorem safeNat?_nearest (n : Nat) :
    (nearest false n 1).safeNat? = if n ≤ greatestSafe then some n else none := by
  by_cases h : n ≤ greatestSafe
  · rw [nearest_natural h, safeNat?_ofNat h, if_pos h]
  · obtain ⟨k, hk, he, hunits⟩ := unitExponent_large (Nat.lt_of_not_le h)
    have hzero : (-(k : Int)).toNat = 0 := by omega
    have hmagnitude : greatestSafe < divNearest n (2 ^ k) * 2 ^ k := by
      have hunit : 2 ^ 1 ≤ 2 ^ k := Nat.pow_le_pow_right (by omega) hk
      calc greatestSafe < 2 ^ 52 * 2 := by decide
        _ ≤ divNearest n (2 ^ k) * 2 ^ k :=
          Nat.mul_le_mul (hunits.trans (div_le_divNearest n (2 ^ k))) hunit
    rw [if_neg h]
    simp only [nearest, he, hzero, Int.toNat_natCast, Nat.shiftLeft_eq, Nat.one_mul, Nat.pow_zero,
      Nat.mul_one, Bool.false_eq_true, if_false]
    split
    · rfl
    · rw [Rat.mkRat_one]
      exact safeNat?_ofNat_of_lt hmagnitude

/-- **A plain decimal denotes its safe natural number.** Fifteen or sixteen digits leave the
decimal far below the magnitudes that are settled by their leading digit alone. -/
theorem ofDecimal_natural {n : Nat} (h : n ≤ greatestSafe) :
    ofDecimal false n 0 = ofNat n := by
  have hlength : decimalLength n ≤ 16 := by
    refine (Nat.length_toDigits_le_iff (by omega) (by omega)).2 ?_
    exact lt_of_le_of_lt h (by decide)
  by_cases hn : n = 0
  · subst hn
    rfl
  · have hplace : ¬ (n = 0 ∨ (decimalLength n : Int) + 0 < -330) := by omega
    have hbelow : ¬ 400 < (decimalLength n : Int) + 0 := by omega
    simp only [ofDecimal, if_neg hplace, if_neg hbelow]
    simpa using nearest_natural h

end Number

/-! ### Digits -/

namespace Text

/-- A non-empty string of digits, and the natural number that it denotes: a further digit
counts one, and all before it ten times as much. -/
inductive Numeral : List Char → Nat → Prop where
  | digit {d : Char} (hd : d.isDigit = true) : Numeral [d] (d.toNat - '0'.toNat)
  | snoc {ds : List Char} {n : Nat} {d : Char} (hds : Numeral ds n) (hd : d.isDigit = true) :
      Numeral (ds ++ [d]) (10 * n + (d.toNat - '0'.toNat))

/-- A numeral is made of digits, of at least one. -/
theorem Numeral.digits {ds : List Char} {n : Nat} (h : Numeral ds n) :
    ds ≠ [] ∧ ∀ c ∈ ds, c.isDigit = true := by
  induction h with
  | digit hd => exact ⟨List.cons_ne_nil _ _, List.forall_mem_singleton.2 hd⟩
  | snoc hds hd ih =>
      refine ⟨by simp, ?_⟩
      exact List.forall_mem_append.2 ⟨ih.2, List.forall_mem_singleton.2 hd⟩

/-- The digits of a numeral stand for its number. -/
theorem Numeral.value {ds : List Char} {n : Nat} (h : Numeral ds n) :
    Nat.ofDigitChars 10 ds 0 = n := by
  induction h with
  | digit hd => simp [Nat.ofDigitChars_cons]
  | snoc hds hd ih => rw [Nat.ofDigitChars_append, ih, Nat.ofDigitChars_cons, Nat.ofDigitChars_nil]

/-- Every non-empty string of digits denotes its value. -/
theorem numeral_of_digits {ds : List Char} (hne : ds ≠ []) (h : ∀ c ∈ ds, c.isDigit = true) :
    Numeral ds (Nat.ofDigitChars 10 ds 0) := by
  induction ds using List.reverseRecOn with
  | nil => exact absurd rfl hne
  | append_singleton ds d ih =>
      obtain ⟨hds, hd⟩ := List.forall_mem_append.1 h
      replace hd := List.forall_mem_singleton.1 hd
      cases ds with
      | nil =>
          rw [List.nil_append, Nat.ofDigitChars_cons, Nat.ofDigitChars_nil, Nat.mul_zero,
            Nat.zero_add]
          exact .digit hd
      | cons c cs =>
          rw [Nat.ofDigitChars_append, Nat.ofDigitChars_cons, Nat.ofDigitChars_nil]
          exact .snoc (ih (List.cons_ne_nil c cs) hds) hd

/-- There is a digit in a numeral. -/
theorem Numeral.exists_digit {ds : List Char} {n : Nat} (h : Numeral ds n) :
    ∃ c ∈ ds, c.isDigit = true := by
  obtain ⟨hne, hdigits⟩ := h.digits
  obtain ⟨c, hc⟩ := List.exists_mem_of_ne_nil ds hne
  exact ⟨c, hc, hdigits c hc⟩

/-- A text that begins with a numeral begins with a digit. -/
theorem Numeral.head_append {ds tail cs : List Char} {n : Nat} {c : Char} (h : Numeral ds n)
    (heq : ds ++ tail = c :: cs) : c.isDigit = true := by
  obtain ⟨hne, hdigits⟩ := h.digits
  obtain ⟨d, ds, rfl⟩ := List.exists_cons_of_ne_nil hne
  obtain ⟨rfl, -⟩ := List.cons.inj heq
  exact hdigits d List.mem_cons_self

/-- **The digit reader accepts exactly the numerals.** -/
theorem natural?_eq_some_iff {ds : List Char} {n : Nat} :
    natural? ds = some n ↔ Numeral ds n := by
  rw [natural?]
  constructor
  · intro h
    split at h
    next hdigits =>
      obtain rfl := Option.some.inj h
      exact numeral_of_digits hdigits.1 (List.all_eq_true.1 hdigits.2)
    next => cases h
  · intro h
    rw [if_pos ⟨h.digits.1, List.all_eq_true.2 h.digits.2⟩, h.value]

/-- An integer in decimal: digits after an optional sign. -/
inductive Signed : List Char → Int → Prop where
  | plain {ds : List Char} {n : Nat} (h : Numeral ds n) : Signed ds n
  | plus {ds : List Char} {n : Nat} (h : Numeral ds n) : Signed ('+' :: ds) n
  | minus {ds : List Char} {n : Nat} (h : Numeral ds n) : Signed ('-' :: ds) (-n)

/-- There is a digit in a numeral with a sign. -/
theorem Signed.exists_digit {cs : List Char} {v : Int} (h : Signed cs v) :
    ∃ c ∈ cs, c.isDigit = true := by
  cases h with
  | plain hds => exact hds.exists_digit
  | plus hds | minus hds =>
      obtain ⟨c, hc, hd⟩ := hds.exists_digit
      exact ⟨c, List.mem_cons_of_mem _ hc, hd⟩

/-- **The integer reader accepts exactly the signed numerals.** -/
theorem integer?_eq_some_iff {cs : List Char} {v : Int} :
    integer? cs = some v ↔ Signed cs v := by
  constructor
  · intro h
    rw [integer?.eq_def] at h
    split at h
    · obtain ⟨z, hz, rfl⟩ := Option.map_eq_some_iff.1 h
      obtain ⟨n, hn, heq⟩ := Option.bind_eq_some_iff.1 hz
      obtain rfl := Option.some.inj heq
      exact .minus (natural?_eq_some_iff.1 hn)
    · obtain ⟨n, hn, rfl⟩ := Option.map_eq_some_iff.1 h
      exact .plus (natural?_eq_some_iff.1 hn)
    · obtain ⟨n, hn, rfl⟩ := Option.map_eq_some_iff.1 h
      exact .plain (natural?_eq_some_iff.1 hn)
  · intro h
    cases h with
    | plus hds | minus hds =>
        rw [integer?, natural?_eq_some_iff.2 hds]
        rfl
    | plain hds =>
        -- a numeral begins with a digit, so neither of the signs is tried
        rw [integer?.eq_def]
        split
        · exact absurd (hds.digits.2 '-' List.mem_cons_self) (by decide)
        · exact absurd (hds.digits.2 '+' List.mem_cons_self) (by decide)
        · rw [natural?_eq_some_iff.2 hds]
          rfl

/-- The decimal digits of a number are digits. -/
theorem isDigit_of_mem_toDigits {n : Nat} {c : Char} (h : c ∈ Nat.toDigits 10 n) :
    c.isDigit = true :=
  Nat.isDigit_of_mem_toDigits (by omega) (by omega) h

/-- There is a first digit. -/
theorem exists_toDigits_eq_cons (n : Nat) :
    ∃ d ds, Nat.toDigits 10 n = d :: ds ∧ d.isDigit = true := by
  obtain ⟨d, ds, hdigits⟩ := List.exists_cons_of_ne_nil (Nat.toDigits_ne_nil (n := n) (b := 10))
  have hd : d ∈ Nat.toDigits 10 n := by simp [hdigits]
  exact ⟨d, ds, hdigits, isDigit_of_mem_toDigits hd⟩

/-- No digit is a sign. -/
theorem toDigits_head_ne_sign (n : Nat) :
    ∀ cs : List Char, Nat.toDigits 10 n ≠ '-' :: cs ∧ Nat.toDigits 10 n ≠ '+' :: cs := by
  obtain ⟨d, ds, hdigits, hd⟩ := exists_toDigits_eq_cons n
  intro cs
  rw [hdigits]
  constructor <;>
  · intro heq
    obtain ⟨rfl, -⟩ := List.cons.inj heq
    cases hd

/-- The digits of a positive number begin with another digit than zero. -/
theorem head?_toDigits_ne_zero {n : Nat} (h : n ≠ 0) : (Nat.toDigits 10 n).head? ≠ some '0' := by
  induction n using Nat.strong_induction_on with
  | _ n ih =>
      by_cases hlt : n < 10
      · rw [Nat.toDigits_of_lt_base hlt]
        interval_cases n <;> simp_all [Nat.digitChar]
      · have hhead := ih (n / 10) (by omega) (by omega)
        rw [Nat.toDigits_of_base_le (by omega) (by omega)]
        cases hdigits : Nat.toDigits 10 (n / 10) with
        | nil => exact absurd hdigits Nat.toDigits_ne_nil
        | cons d ds =>
            rw [hdigits] at hhead
            exact hhead

/-- Digits have no leading zero. -/
theorem toDigits_ne_zero_cons (n : Nat) (d : Char) (ds : List Char) :
    Nat.toDigits 10 n ≠ '0' :: d :: ds := by
  intro heq
  by_cases hn : n = 0
  · subst hn
    simp at heq
  · exact head?_toDigits_ne_zero hn (by rw [heq]; rfl)

/-- The digits of a natural number read back as the integer. -/
theorem integer?_toDigits (n : Nat) : integer? (Nat.toDigits 10 n) = some (n : Int) := by
  have hsign := toDigits_head_ne_sign n
  unfold integer?
  split
  · rename_i cs heq
    exact absurd heq (hsign cs).1
  · rename_i cs heq
    exact absurd heq (hsign cs).2
  · rw [natural?_toDigits]
    rfl

/-- The characters of an integer's text: digits, after a minus sign if it is negative. -/
theorem toList_toString (v : Int) :
    (toString v).toList =
      if 0 ≤ v then Nat.toDigits 10 v.toNat else '-' :: Nat.toDigits 10 (-v).toNat := by
  rw [Int.toString_eq_repr, Int.repr_eq_if]
  split
  · rw [Nat.toList_repr]
  · rw [String.toList_append, Nat.toList_repr]
    rfl

/-- **The text of an integer reads back as it.** -/
theorem integer?_toString (v : Int) : integer? (toString v).toList = some v := by
  rw [toList_toString]
  split
  · rw [integer?_toDigits]
    congr 1
    omega
  · rw [integer?, natural?_toDigits]
    change some (-((-v).toNat : Int)) = some v
    congr 1
    omega

end Text

end StackMachine
