import Mathlib.Data.Int.Log
import Mathlib.Data.Rat.Floor
import Mathlib.Tactic.NormNum
import Mathlib.Tactic.Positivity
import StackMachine.Proofs.JsonGrammar
import StackMachine.Proofs.Listing

/-!
# Numbers that read back

A number is written with the fewest digits that read back as itself, and these digits are laid out
in one of four ways. This module shows that the reader of the interchange format gets the number
back, for every natural number that binary64 holds.

The digits were chosen by reading them back, so nothing is to be shown about the choice. What is
to be shown is that the reader, which finds the same digits with other zeros around them and
another exponent, rounds the same quotient. A quotient decides its rounding, however it is written
as a fraction, because the leading bit is the logarithm of the quotient and the nearest multiple
of the unit in the last place is not changed by a common factor.

## Main definitions

* `Number.Representable` and `Number.IsNatural`: the natural numbers that binary64 holds.
* `Number.StandsFor`: a number is a natural one, as far as binary64 holds it.
* `Decimal.placed`: the number that digits with a point among them denote.

## Main results

* `Number.nearest_mul_right`: rounding is a matter of the quotient.
* `Number.Representable.nearest_eq`: rounding fixes what binary64 holds.
* `Decimal.magnitude_text`: the text of a decimal is read by its value, however it is laid out.
* `Number.Representable.numeric_text`: **what is written of a natural number reads back.**
-/

namespace StackMachine

namespace Number

/-! ### Rounding a quotient -/

/-- Rounding to the nearest natural number is a matter of the quotient. -/
theorem divNearest_mul_right (n d : Nat) {c : Nat} (hc : 0 < c) :
    divNearest (n * c) (d * c) = divNearest n d := by
  have hlt : 2 * (n % d * c) < d * c ↔ 2 * (n % d) < d := by
    rw [← Nat.mul_assoc, Nat.mul_lt_mul_right hc]
  have hgt : d * c < 2 * (n % d * c) ↔ d < 2 * (n % d) := by
    rw [← Nat.mul_assoc, Nat.mul_lt_mul_right hc]
  simp only [divNearest, Nat.mul_div_mul_right n d hc, Nat.mul_mod_mul_right, hlt, hgt]

/-- A whole number of units needs no rounding. -/
theorem divNearest_mul_self (q : Nat) {d : Nat} (hd : 0 < d) : divNearest (q * d) d = q := by
  have hscaled := divNearest_mul_right q 1 hd
  rwa [Nat.one_mul, divNearest_one] at hscaled

/-- Shifts on both sides compare a power of two with the quotient. -/
theorem shift_le_iff {n d : Nat} (hd : 0 < d) (g : Int) :
    d <<< g.toNat ≤ n <<< (-g).toNat ↔ (2 : ℚ) ^ g ≤ (n : ℚ) / d := by
  have hd' : (0 : ℚ) < d := by exact_mod_cast hd
  have hg : g = (g.toNat : Int) - ((-g).toNat : Int) := by omega
  have hpow : (2 : ℚ) ^ g = 2 ^ g.toNat / 2 ^ (-g).toNat := by
    conv_lhs => rw [hg]
    rw [zpow_sub₀ two_ne_zero, zpow_natCast, zpow_natCast]
  rw [hpow, div_le_div_iff₀ (by positivity) hd', Nat.shiftLeft_eq, Nat.shiftLeft_eq,
    mul_comm ((2 : ℚ) ^ g.toNat)]
  exact_mod_cast Iff.rfl

/-- The exponent of the leading bit is the logarithm of the quotient. -/
theorem floorLog_eq_log {n d : Nat} (hn : 0 < n) (hd : 0 < d) :
    floorLog n d = Int.log 2 ((n : ℚ) / d) := by
  have hquotient : (0 : ℚ) < (n : ℚ) / d := by positivity
  have hlog : ∀ g : Int, (2 : ℚ) ^ g ≤ (n : ℚ) / d ↔ g ≤ Int.log 2 ((n : ℚ) / d) := fun g =>
    Int.zpow_le_iff_le_log (b := 2) one_lt_two hquotient
  have hbounds : ∀ {m : Nat}, 0 < m →
      (2 : ℚ) ^ (m.log2 : Int) ≤ m ∧ (m : ℚ) < 2 ^ (m.log2 + 1 : Int) := by
    intro m hm
    constructor
    · exact_mod_cast Nat.log2_self_le hm.ne'
    · exact_mod_cast (Nat.log2_lt hm.ne').1 (Nat.lt_succ_self _)
  obtain ⟨hnlow, hnhigh⟩ := hbounds hn
  obtain ⟨hdlow, hdhigh⟩ := hbounds hd
  have hlow : (n.log2 : Int) - d.log2 - 1 ≤ Int.log 2 ((n : ℚ) / d) := by
    rw [← hlog, le_div_iff₀ (by positivity)]
    calc (2 : ℚ) ^ ((n.log2 : Int) - d.log2 - 1) * d
        ≤ 2 ^ ((n.log2 : Int) - d.log2 - 1) * 2 ^ (d.log2 + 1 : Int) :=
          mul_le_mul_of_nonneg_left hdhigh.le (zpow_nonneg zero_le_two _)
      _ = 2 ^ (n.log2 : Int) := by
        rw [← zpow_add₀ two_ne_zero]
        congr 1
        omega
      _ ≤ n := hnlow
  have hhigh : Int.log 2 ((n : ℚ) / d) < (n.log2 : Int) - d.log2 + 1 := by
    rw [← Int.lt_zpow_iff_log_lt (b := 2) one_lt_two hquotient, div_lt_iff₀ (by positivity)]
    calc (n : ℚ) < 2 ^ (n.log2 + 1 : Int) := hnhigh
      _ = 2 ^ ((n.log2 : Int) - d.log2 + 1) * 2 ^ (d.log2 : Int) := by
        rw [← zpow_add₀ two_ne_zero]
        congr 1
        omega
      _ ≤ 2 ^ ((n.log2 : Int) - d.log2 + 1) * d :=
        mul_le_mul_of_nonneg_left hdlow (zpow_nonneg zero_le_two _)
  simp only [floorLog, shift_le_iff hd, hlog]
  split <;> omega

/-- **Rounding is a matter of the quotient.** -/
theorem nearest_mul_right (negative : Bool) {n d c : Nat} (hn : 0 < n) (hd : 0 < d) (hc : 0 < c) :
    nearest negative (n * c) (d * c) = nearest negative n d := by
  have hunit : unitExponent (n * c) (d * c) = unitExponent n d := by
    have hc' : (c : ℚ) ≠ 0 := by exact_mod_cast hc.ne'
    simp only [unitExponent, floorLog_eq_log (Nat.mul_pos hn hc) (Nat.mul_pos hd hc),
      floorLog_eq_log hn hd, Nat.cast_mul, mul_div_mul_right _ _ hc']
  simp only [nearest, hunit, Nat.shiftLeft_eq, Nat.mul_right_comm _ c, divNearest_mul_right _ _ hc]

/-- A zero at the end of the digits counts like one in the exponent. -/
theorem ofDecimal_mul_ten (negative : Bool) (m : Nat) (e : Int) :
    ofDecimal negative (m * 10) e = ofDecimal negative m (e + 1) := by
  rcases Nat.eq_zero_or_pos m with rfl | hm
  · simp [ofDecimal]
  · have hlength : decimalLength (m * 10) = decimalLength m + 1 := by
      rw [decimalLength, Nat.toDigits_of_base_le (by omega) (by omega)]
      simp [decimalLength]
    have hplace : ((decimalLength m + 1 : Nat) : Int) + e = decimalLength m + (e + 1) := by omega
    have hzero : m * 10 = 0 ↔ m = 0 := by omega
    have hround : nearest negative (m * 10 * Nat.pow 10 e.toNat) (Nat.pow 10 (-e).toNat) =
        nearest negative (m * Nat.pow 10 (e + 1).toNat) (Nat.pow 10 (-(e + 1)).toNat) := by
      rcases Int.lt_or_le e 0 with he | he
      · obtain ⟨k, hk⟩ : ∃ k : Nat, e = -(k + 1 : Nat) := ⟨(-e).toNat - 1, by omega⟩
        have h₁ : e.toNat = 0 := by omega
        have h₂ : (-e).toNat = k + 1 := by omega
        have h₃ : (e + 1).toNat = 0 := by omega
        have h₄ : (-(e + 1)).toNat = k := by omega
        rw [h₁, h₂, h₃, h₄]
        simpa [Nat.pow_succ] using nearest_mul_right negative hm (Nat.pow_pos (by omega : 0 < 10))
          (by omega : 0 < 10)
      · have h₁ : (e + 1).toNat = e.toNat + 1 := by omega
        have h₂ : (-e).toNat = 0 := by omega
        have h₃ : (-(e + 1)).toNat = 0 := by omega
        rw [h₁, h₂, h₃, Nat.mul_assoc]
        congr 2
        exact (Nat.pow_succ').symm
    simp only [ofDecimal, hlength, hplace, hzero, hround]

/-- **A decimal is read by its value**: zeros at the end of its digits may go into the exponent. -/
theorem ofDecimal_mul_pow (negative : Bool) (m k : Nat) (e : Int) :
    ofDecimal negative (m * 10 ^ k) e = ofDecimal negative m (e + k) := by
  induction k generalizing e with
  | zero => simp
  | succ k ih =>
      rw [Nat.pow_succ, ← Nat.mul_assoc, ofDecimal_mul_ten, ih]
      congr 1
      omega

/-! ### Natural numbers in binary64 -/

/-- The natural numbers that binary64 holds: those in the finite range that have no more than
fifty-three binary digits before the zeros at their end. -/
def Representable (n : Nat) : Prop := n < 2 ^ 1024 ∧ ∃ m k, m < 2 ^ 53 ∧ n = m * 2 ^ k

/-- A number that is a natural one and that binary64 holds. -/
def IsNatural (x : Number) : Prop := ∃ n, Representable n ∧ x = ofNat n

/-- Every natural number up to the greatest safe one is representable. -/
theorem representable_of_le {n : Nat} (h : n ≤ greatestSafe) : Representable n := by
  have hn : n < 2 ^ 53 := Nat.lt_of_le_of_lt h (by decide)
  refine ⟨Nat.lt_of_lt_of_le hn ?_, n, 0, hn, by rw [Nat.pow_zero, Nat.mul_one]⟩
  apply Nat.pow_le_pow_right <;> decide

/-- A number that binary64 holds is a whole number of its units in the last place. -/
theorem Representable.exists_units {n : Nat} (h : Representable n) (hlarge : greatestSafe < n) :
    ∃ q k : Nat, unitExponent n 1 = k ∧ n = q * 2 ^ k := by
  obtain ⟨-, m, j, hm, hn⟩ := h
  obtain ⟨k, -, hunit, hunits⟩ := unitExponent_large hlarge
  have hle : k ≤ j := by
    rw [Nat.le_div_iff_mul_le (Nat.two_pow_pos k), hn, ← Nat.pow_add] at hunits
    have hlt : 2 ^ (52 + k) < 2 ^ (53 + j) :=
      calc 2 ^ (52 + k) ≤ m * 2 ^ j := hunits
        _ < 2 ^ 53 * 2 ^ j := Nat.mul_lt_mul_of_pos_right hm (Nat.two_pow_pos j)
        _ = 2 ^ (53 + j) := (Nat.pow_add 2 53 j).symm
    have := (Nat.pow_lt_pow_iff_right (by omega)).1 hlt
    omega
  refine ⟨m * 2 ^ (j - k), k, hunit, ?_⟩
  rw [hn, Nat.mul_assoc, ← Nat.pow_add, Nat.sub_add_cancel hle]

/-- **Rounding fixes what binary64 holds.** -/
theorem Representable.nearest_eq {n : Nat} (h : Representable n) :
    nearest false n 1 = ofNat n := by
  rcases Nat.lt_or_ge greatestSafe n with hlarge | hsafe
  · obtain ⟨q, k, hunit, hn⟩ := h.exists_units hlarge
    have hzero : (-(k : Int)).toNat = 0 := by omega
    have hround : divNearest n (2 ^ k) * 2 ^ k = n := by
      rw [hn, divNearest_mul_self q (Nat.two_pow_pos k)]
    have hfinite : ¬ 2 ^ 1024 ≤ n := Nat.not_le.2 h.1
    simp only [nearest, hunit, hzero, Int.toNat_natCast, Nat.shiftLeft_eq, Nat.one_mul,
      Nat.pow_zero, Nat.mul_one, hround, if_neg hfinite, Bool.false_eq_true, if_false,
      Rat.mkRat_one]
    rfl
  · exact nearest_natural hsafe

/-- So it is what its own digits denote. -/
theorem Representable.ofDecimal_eq {n : Nat} (h : Representable n) :
    ofDecimal false n 0 = ofNat n := by
  rcases Nat.eq_zero_or_pos n with rfl | hn
  · rfl
  · -- The exponents are variables here, so that no power is computed.
    have hlength : ∀ e k, 0 < k → e ≤ 3 * k → n < 2 ^ e → decimalLength n ≤ k := by
      intro e k hk he hn
      refine (Nat.length_toDigits_le_iff (by decide) hk).2 (hn.trans_le ?_)
      calc 2 ^ e ≤ 2 ^ (3 * k) := Nat.pow_le_pow_right (by decide) he
        _ = (2 ^ 3) ^ k := Nat.pow_mul 2 3 k
        _ ≤ 10 ^ k := Nat.pow_le_pow_left (by decide) k
    have hbound := hlength 1024 400 (by decide) (by decide) h.1
    have hplace : ¬ (n = 0 ∨ (decimalLength n : Int) + 0 < -330) := by omega
    have hbelow : ¬ 400 < (decimalLength n : Int) + 0 := by omega
    simp only [ofDecimal, if_neg hplace, if_neg hbelow]
    simpa using h.nearest_eq

/-- A decimal that is found on a grid reads back. -/
theorem ofDecimal_of_onGrid? {value : Rat} {e : Int} {d : Decimal}
    (h : onGrid? value e = some d) : ofDecimal false d.digits d.exponent = finite value := by
  unfold onGrid? at h
  extract_lets n d below closer other at h
  split at h
  next hcloser =>
    obtain rfl := Option.some.inj h
    exact hcloser
  next =>
    split at h
    next hother =>
      obtain rfl := Option.some.inj h
      exact hother
    next => cases h

/-- The shortest decimal was found on a grid by reading it back, or has all digits. -/
theorem shortest_cases (n : Nat) :
    ofDecimal false (shortest (Rat.ofInt n)).digits (shortest (Rat.ofInt n)).exponent = ofNat n ∨
      shortest (Rat.ofInt n) = ⟨n, 0⟩ := by
  rw [shortest]
  rcases hfound : (List.range 17).findSome? fun (k : Nat) => onGrid? (Rat.ofInt n)
    (leadingPlace (Rat.ofInt n).num.toNat (Rat.ofInt n).den - 1 - k) with _ | d
  · have hone : Nat.log2 1 = 0 := by decide
    exact .inr (by simp [exactly, Rat.ofInt, hone])
  · obtain ⟨k, -, hgrid⟩ := List.exists_of_findSome?_eq_some hfound
    exact .inl (ofDecimal_of_onGrid? hgrid)

/-- **The shortest decimal reads back.** -/
theorem Representable.ofDecimal_shortest {n : Nat} (h : Representable n) :
    ofDecimal false (shortest (Rat.ofInt n)).digits (shortest (Rat.ofInt n)).exponent =
      ofNat n := by
  rcases shortest_cases n with hgrid | hexactly
  · exact hgrid
  · rw [hexactly]
    exact h.ofDecimal_eq

end Number

/-! ### The layout of digits -/

namespace Json

/-- The digits of a natural number are the whole part of a number. -/
theorem whole_toDigits (n : Nat) : Whole (Nat.toDigits 10 n) := by
  by_cases hn : n = 0
  · subst hn
    exact .zero
  · obtain ⟨d, ds, hdigits, hd⟩ := Text.exists_toDigits_eq_cons n
    have hhead := Text.head?_toDigits_ne_zero hn
    have hmem : ∀ c ∈ Nat.toDigits 10 n, c.isDigit = true := fun _ => Text.isDigit_of_mem_toDigits
    rw [hdigits] at hhead hmem ⊢
    refine .positive hd ?_ (List.forall_mem_cons.1 hmem).2
    rintro rfl
    exact hhead rfl

/-- A point and digits are a fraction. -/
theorem fraction_of_digits {ds : List Char} (hne : ds ≠ []) (hds : ∀ c ∈ ds, c.isDigit = true) :
    Fraction ('.' :: ds) ds :=
  .point (Text.numeral_of_digits hne hds)

/-- A whole part, a fraction and an exponent spell the value of their digits. -/
theorem Magnitude.of_parts {whole fraction exponent ds text : List Char} {e : Int} {x : Number}
    (hwhole : Whole whole) (hfraction : Fraction fraction ds) (hexponent : Exponent exponent e)
    (htext : text = whole ++ (fraction ++ exponent))
    (hvalue : Number.ofDecimal false (Nat.ofDigitChars 10 (whole ++ ds) 0) (e - ds.length) = x) :
    Magnitude false text x := by
  have hnumeral : Text.Numeral (whole ++ ds) (Nat.ofDigitChars 10 (whole ++ ds) 0) :=
    Text.numeral_of_digits (List.append_ne_nil_of_left_ne_nil hwhole.digits.1 ds)
      (List.forall_mem_append.2 ⟨hwhole.digits.2, hfraction.digits⟩)
  rw [htext, ← hvalue]
  exact .mk hwhole hfraction hexponent hnumeral

end Json

namespace Decimal

open Json (Whole Fraction Exponent Magnitude)

/-- The number that digits denote if the point stands at a place, counted from their left end. -/
def placed (ds : List Char) (p : Int) : Number :=
  Number.ofDecimal false (Nat.ofDigitChars 10 ds 0) (p - ds.length)

section Layouts

variable {first : Char} {rest : List Char} {p : Int}

/-- A row of zeros is made of digits. -/
theorem isDigit_of_mem_zeros {c : Char} {k : Nat} (h : c ∈ List.replicate k '0') :
    c.isDigit = true := by
  rw [List.eq_of_mem_replicate h]
  rfl

/-- The digits stand before the point, and zeros between them and it. -/
theorem magnitude_before (hfirst : first.isDigit = true) (hzero : first ≠ '0')
    (hrest : ∀ c ∈ rest, c.isDigit = true) (hp : (first :: rest).length ≤ p) :
    Magnitude false (first :: rest ++ List.replicate (p - (first :: rest).length).toNat '0')
      (placed (first :: rest) p) := by
  have hdigits : ∀ c ∈ rest ++ List.replicate (p - (first :: rest).length).toNat '0',
      c.isDigit = true := List.forall_mem_append.2 ⟨hrest, fun _ => isDigit_of_mem_zeros⟩
  refine .of_parts (.positive hfirst hzero hdigits) .none .none (by simp) ?_
  rw [List.append_nil, ← List.cons_append, Nat.ofDigitChars_append,
    Nat.ofDigitChars_replicate_zero, Nat.mul_comm, Number.ofDecimal_mul_pow, placed]
  congr 1
  rw [List.length_nil]
  omega

/-- The point stands among the digits. -/
theorem magnitude_among (hfirst : first.isDigit = true) (hzero : first ≠ '0')
    (hrest : ∀ c ∈ rest, c.isDigit = true) (hpos : 0 < p) (hp : p < (first :: rest).length) :
    Magnitude false ((first :: rest).take p.toNat ++ '.' :: (first :: rest).drop p.toNat)
      (placed (first :: rest) p) := by
  obtain ⟨k, hk⟩ : ∃ k : Nat, p.toNat = k + 1 := ⟨p.toNat - 1, by omega⟩
  have hshort : k < rest.length := by
    rw [List.length_cons] at hp
    omega
  have hdrop : rest.drop k ≠ [] := by
    rw [ne_eq, List.drop_eq_nil_iff]
    omega
  have hbefore : ∀ c ∈ rest.take k, c.isDigit = true := fun c hc =>
    hrest c (List.mem_of_mem_take hc)
  have hbehind : ∀ c ∈ rest.drop k, c.isDigit = true := fun c hc =>
    hrest c (List.mem_of_mem_drop hc)
  rw [hk, List.take_succ_cons, List.drop_succ_cons]
  refine .of_parts (.positive hfirst hzero hbefore) (Json.fraction_of_digits hdrop hbehind) .none
    (by rw [List.append_nil]) ?_
  rw [List.cons_append, List.take_append_drop, placed, List.length_drop, List.length_cons]
  congr 1
  omega

/-- The digits stand behind the point, and zeros between it and them. -/
theorem magnitude_behind (hdigits : ∀ c ∈ first :: rest, c.isDigit = true) (hp : p ≤ 0) :
    Magnitude false ('0' :: '.' :: (List.replicate (-p).toNat '0' ++ first :: rest))
      (placed (first :: rest) p) := by
  have hbehind : ∀ c ∈ List.replicate (-p).toNat '0' ++ first :: rest, c.isDigit = true :=
    List.forall_mem_append.2 ⟨fun _ => isDigit_of_mem_zeros, hdigits⟩
  refine .of_parts .zero (Json.fraction_of_digits (by simp) hbehind) .none (by simp) ?_
  rw [List.singleton_append, Nat.ofDigitChars_cons, Nat.ofDigitChars_append,
    Nat.ofDigitChars_replicate_zero, placed, List.length_append, List.length_replicate]
  congr 1
  omega

/-- The text of an exponent spells the exponent. -/
theorem exponent_exponentText (e : Int) : Exponent (exponentText e) e := by
  have hnumeral := Text.natural?_eq_some_iff.1 (Text.natural?_toDigits e.natAbs)
  rw [exponentText]
  split
  next hneg =>
    have hsigned := Text.Signed.minus hnumeral
    have hvalue : -(e.natAbs : Int) = e := by omega
    rw [hvalue] at hsigned
    exact .mark (.inl rfl) hsigned
  next hpos =>
    have hsigned := Text.Signed.plus hnumeral
    have hvalue : (e.natAbs : Int) = e := by omega
    rw [hvalue] at hsigned
    exact .mark (.inl rfl) hsigned

/-- The point stands behind the first digit, and an exponent tells how far it is to be moved. -/
theorem magnitude_scaled (hfirst : first.isDigit = true) (hzero : first ≠ '0')
    (hrest : ∀ c ∈ rest, c.isDigit = true) (p : Int) :
    Magnitude false
      (first :: (if rest = [] then [] else '.' :: rest) ++ exponentText (p - 1))
      (placed (first :: rest) p) := by
  have hwhole : Whole [first] := .positive hfirst hzero (List.forall_mem_nil _)
  have hexponent := exponent_exponentText (p - 1)
  have hplace : p - 1 - (rest.length : Int) = p - (first :: rest).length := by
    rw [List.length_cons]
    omega
  split
  next hnil =>
    subst hnil
    exact .of_parts hwhole .none hexponent rfl (congrArg _ hplace)
  next hne =>
    exact .of_parts hwhole (Json.fraction_of_digits hne hrest) hexponent rfl (congrArg _ hplace)

end Layouts

variable {d : Decimal}

/-- The digits of a positive decimal are its significant ones, of which the first is no zero, and
zeros behind them. -/
theorem exists_significand (h : d.digits ≠ 0) :
    ∃ first rest z, d.significand = first :: rest ∧ first ≠ '0' ∧
      (∀ c ∈ first :: rest, c.isDigit = true) ∧
      Nat.toDigits 10 d.digits = first :: rest ++ List.replicate z '0' := by
  let zeros := (Nat.toDigits 10 d.digits).reverse.takeWhile (· == '0')
  have hzeros : zeros.reverse = List.replicate zeros.length '0' := by
    refine List.eq_replicate_iff.2 ⟨List.length_reverse, ?_⟩
    intro c hc
    exact beq_iff_eq.1 (List.all_eq_true.1 List.all_takeWhile c (List.mem_reverse.1 hc))
  have hsplit : Nat.toDigits 10 d.digits = d.significand ++ List.replicate zeros.length '0' := by
    rw [← hzeros, significand, ← List.reverse_append, List.takeWhile_append_dropWhile,
      List.reverse_reverse]
  have hhead := Text.head?_toDigits_ne_zero h
  have hmem : ∀ c ∈ Nat.toDigits 10 d.digits, c.isDigit = true :=
    fun _ => Text.isDigit_of_mem_toDigits
  rcases hsig : d.significand with _ | ⟨first, rest⟩
  · -- Otherwise the digits are zeros throughout.
    rw [hsig, List.nil_append] at hsplit
    rcases hlength : zeros.length with _ | z
    · rw [hlength] at hsplit
      exact absurd hsplit Nat.toDigits_ne_nil
    · rw [hsplit, hlength] at hhead
      exact absurd rfl hhead
  · rw [hsig] at hsplit
    rw [hsplit] at hhead hmem
    refine ⟨first, rest, zeros.length, rfl, ?_, (List.forall_mem_append.1 hmem).1, hsplit⟩
    rintro rfl
    exact hhead rfl

/-- A decimal is told by its significant digits and the place of its point. -/
theorem ofDecimal_eq_placed (h : d.digits ≠ 0) :
    Number.ofDecimal false d.digits d.exponent = placed d.significand d.point := by
  obtain ⟨first, rest, z, hsig, -, -, hdigits⟩ := exists_significand h
  rw [← hsig] at hdigits
  have hvalue : d.digits = Nat.ofDigitChars 10 d.significand 0 * 10 ^ z := by
    conv_lhs => rw [← Nat.ofDigitChars_ten_toDigits (n := d.digits), hdigits]
    rw [Nat.ofDigitChars_append, Nat.ofDigitChars_replicate_zero, Nat.mul_comm]
  have hpoint : d.exponent + z = d.point - d.significand.length := by
    rw [point, hdigits, List.length_append, List.length_replicate]
    omega
  rw [placed, hvalue, Number.ofDecimal_mul_pow, hpoint]

/-- **The text of a decimal is read by its value**, however it is laid out. -/
theorem magnitude_text (h : d.digits ≠ 0) :
    Magnitude false d.text.toList (Number.ofDecimal false d.digits d.exponent) := by
  obtain ⟨first, rest, -, hsig, hzero, hdigits, -⟩ := exists_significand h
  obtain ⟨hfirst, hrest⟩ := List.forall_mem_cons.1 hdigits
  rw [ofDecimal_eq_placed h, text, String.toList_ofList]
  simp only [hsig]
  generalize d.point = p
  split
  next hplain =>
    split
    next hle => exact magnitude_before hfirst hzero hrest hle
    next hlt => exact magnitude_among hfirst hzero hrest hplain.1 (Int.not_le.1 hlt)
  next =>
    split
    next hsmall => exact magnitude_behind hdigits hsmall.2
    next =>
      have hscaled := magnitude_scaled hfirst hzero hrest p
      cases rest <;> exact hscaled

end Decimal

namespace Number

/-- Different natural numbers are different as numbers. -/
theorem ofNat_injective : Function.Injective ofNat := by
  intro m n h
  have hvalue : Rat.ofInt m = Rat.ofInt n := Number.finite.inj h
  exact Int.ofNat_inj.1 (congrArg Rat.num hvalue)

/-- A large natural number is written by its shortest decimal. -/
theorem numeric_text_large {n : Nat} (h : greatestSafe < n) :
    Json.Numeric (ofNat n).text.toList
      (ofDecimal false (shortest (Rat.ofInt n)).digits (shortest (Rat.ofInt n)).exponent) := by
  have htext : (ofNat n).text = (shortest (Rat.ofInt n)).text := by
    have hunsafe : ¬ (n : Int).natAbs ≤ greatestSafe := by omega
    have hsign : ¬ (n : Int) < 0 := by omega
    simp only [ofNat, ofInt, text, Rat.ofInt, hunsafe, and_false, if_false, hsign]
  have hpositive : (shortest (Rat.ofInt n)).digits ≠ 0 := by
    intro hzero
    rcases shortest_cases n with hgrid | hexactly
    · have hnone : ofNat 0 = ofNat n := by
        rw [← hgrid, hzero]
        rfl
      have hn := ofNat_injective hnone
      omega
    · rw [hexactly] at hzero
      have hn : n = 0 := hzero
      omega
  rw [htext]
  exact .plain (Decimal.magnitude_text hpositive)

/-- **What is written of a natural number reads back**, if binary64 holds it. -/
theorem Representable.numeric_text {n : Nat} (h : Representable n) :
    Json.Numeric (ofNat n).text.toList (ofNat n) := by
  rcases Nat.lt_or_ge greatestSafe n with hlarge | hsafe
  · have hnumeric := numeric_text_large hlarge
    rwa [h.ofDecimal_shortest] at hnumeric
  · have htext : (toString n).toList = Nat.toDigits 10 n := Nat.toList_repr
    rw [text_ofNat hsafe, htext]
    refine .plain (.of_parts (Json.whole_toDigits n) .none .none (by simp) ?_)
    rw [List.append_nil, Nat.ofDigitChars_ten_toDigits]
    exact h.ofDecimal_eq

end Number

/-! ### No blanks -/

namespace Json

variable {text : List Char}

/-- Digits are no blanks. -/
theorem isBlank_of_digits (h : ∀ c ∈ text, c.isDigit = true) :
    ∀ c ∈ text, Text.isBlank c = false :=
  fun c hc => Text.isBlank_of_isDigit (h c hc)

/-- There is no blank in a fraction. -/
theorem Fraction.isBlank {ds : List Char} (h : Fraction text ds) :
    ∀ c ∈ text, Text.isBlank c = false := by
  cases h with
  | none => exact List.forall_mem_nil _
  | point hds => exact List.forall_mem_cons.2 ⟨rfl, isBlank_of_digits hds.digits.2⟩

/-- There is no blank in an exponent. -/
theorem Exponent.isBlank {e : Int} (h : Exponent text e) :
    ∀ c ∈ text, Text.isBlank c = false := by
  cases h with
  | none => exact List.forall_mem_nil _
  | mark hc hsigned =>
      refine List.forall_mem_cons.2 ⟨by rcases hc with rfl | rfl <;> rfl, ?_⟩
      cases hsigned with
      | plain hds => exact isBlank_of_digits hds.digits.2
      | plus hds | minus hds => exact List.forall_mem_cons.2 ⟨rfl, isBlank_of_digits hds.digits.2⟩

/-- There is no blank in a number without its sign. -/
theorem Magnitude.isBlank {negative : Bool} {x : Number} (h : Magnitude negative text x) :
    ∀ c ∈ text, Text.isBlank c = false := by
  cases h with
  | mk hwhole hfraction hexponent =>
      exact List.forall_mem_append.2 ⟨isBlank_of_digits hwhole.digits.2,
        List.forall_mem_append.2 ⟨hfraction.isBlank, hexponent.isBlank⟩⟩

/-- A number is written as one word. -/
theorem Numeric.isWord {x : Number} (h : Numeric text x) : Text.IsWord text := by
  obtain ⟨c, cs, hcs, -⟩ := h.exists_head
  refine ⟨hcs ▸ List.cons_ne_nil c cs, ?_⟩
  cases h with
  | plain h => exact h.isBlank
  | minus h => exact List.forall_mem_cons.2 ⟨rfl, h.isBlank⟩

end Json

end StackMachine
