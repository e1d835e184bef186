/-!
# Sixty-four bit words

Every value that the machine computes is a signed sixty-four bit word. Words are kept as
integers, so that they can be compared with mathematics directly, and arithmetic reduces
its result by `wrap`.

## Main definitions

* `Word.InRange`: an integer that a word can hold.
* `Word.wrap`: the word congruent to an integer modulo `2 ^ 64`.
-/

namespace StackMachine.Word

/-- The least word, `-2 ^ 63`. -/
def least : Int := -9223372036854775808

/-- The greatest word, `2 ^ 63 - 1`. -/
def greatest : Int := 9223372036854775807

/-- The integers that a word can hold. -/
def InRange (v : Int) : Prop := least ≤ v ∧ v ≤ greatest

instance (v : Int) : Decidable (InRange v) :=
  inferInstanceAs (Decidable (least ≤ v ∧ v ≤ greatest))

/-- The word congruent to `v` modulo `2 ^ 64`: the balanced remainder. -/
def wrap (v : Int) : Int := v.bmod 18446744073709551616

/-- Reduction always ends inside the range. -/
theorem inRange_wrap (v : Int) : InRange (wrap v) := by
  simp only [InRange, wrap, least, greatest, Int.bmod_def]
  omega

/-- Reduction changes nothing inside the range. -/
theorem wrap_eq_self {v : Int} (h : InRange v) : wrap v = v := by
  simp only [InRange, least, greatest] at h
  simp only [wrap, Int.bmod_def]
  omega

/-- The remainder modulo `256`, the part of a word that an exit status can carry. -/
def lowByte (v : Int) : Nat := (v % 256).toNat

end StackMachine.Word
