import Mathlib.Algebra.Order.Field.Rat
import Mathlib.Algebra.Order.Ring.Rat

/-! Binary floating point formats: the number that a bit pattern stands for. -/
namespace Carbond.Ieee

/-- A sign, an exponent and a fraction, from the top bit down. -/
structure Format where
  exponentBits : ℕ
  fractionBits : ℕ

def single : Format := ⟨8, 23⟩
def double : Format := ⟨11, 52⟩

namespace Format
variable (format : Format)

def fraction (bits : ℕ) : ℕ := bits % 2 ^ format.fractionBits
def exponent (bits : ℕ) : ℕ := bits / 2 ^ format.fractionBits % 2 ^ format.exponentBits
def negative (bits : ℕ) : Bool := bits / 2 ^ (format.fractionBits + format.exponentBits) % 2 = 1
def bias : ℕ := 2 ^ (format.exponentBits - 1) - 1

/-- The exponent of infinities and of what is not a number is the largest one. -/
def Finite (bits : ℕ) : Prop := format.exponent bits ≠ 2 ^ format.exponentBits - 1

/-- With exponent 0 there is no implicit leading bit. -/
def magnitude (bits : ℕ) : ℚ :=
  if format.exponent bits = 0 then
    format.fraction bits * 2 / 2 ^ (format.bias + format.fractionBits)
  else
    (2 ^ format.fractionBits + format.fraction bits) * 2 ^ format.exponent bits /
      2 ^ (format.bias + format.fractionBits)

/-- The number of a finite bit pattern. -/
def value (bits : ℕ) : ℚ :=
  if format.negative bits then -format.magnitude bits else format.magnitude bits

instance (bits : ℕ) : Decidable (format.Finite bits) := inferInstanceAs (Decidable (_ ≠ _))

@[simp] theorem value_zero : format.value 0 = 0 := by
  simp [value, magnitude, fraction, exponent]

/-! ### Natural numbers -/

/-- The bit pattern of a natural number, which is exact where its binary digits fit into the fraction
and the implicit bit. -/
def ofNat (n : ℕ) : ℕ :=
  if n = 0 then 0
  else (format.bias + n.log2) * 2 ^ format.fractionBits +
    (n * 2 ^ (format.fractionBits - n.log2) - 2 ^ format.fractionBits)

variable {format} {n : ℕ}

/-- The leading digit is moved to the implicit bit. -/
theorem shifted_bounds (positive : n ≠ 0) (fits : n < 2 ^ (format.fractionBits + 1)) :
    2 ^ format.fractionBits ≤ n * 2 ^ (format.fractionBits - n.log2) ∧
      n * 2 ^ (format.fractionBits - n.log2) < 2 * 2 ^ format.fractionBits := by
  have digits : n.log2 ≤ format.fractionBits :=
    Nat.lt_succ_iff.mp ((Nat.log2_lt positive).mpr fits)
  have split : 2 ^ n.log2 * 2 ^ (format.fractionBits - n.log2) = 2 ^ format.fractionBits := by
    rw [← pow_add, Nat.add_sub_cancel' digits]
  constructor
  · rw [← split]
    exact Nat.mul_le_mul_right _ (Nat.log2_self_le positive)
  · rw [← split, ← mul_assoc, ← pow_succ']
    exact Nat.mul_lt_mul_of_pos_right Nat.lt_log2_self (Nat.two_pow_pos _)

theorem value_ofNat (fits : n < 2 ^ (format.fractionBits + 1)) (biased : 0 < format.bias)
    (room : format.bias + format.fractionBits < 2 ^ format.exponentBits) :
    format.value (format.ofNat n) = n := by
  by_cases positive : n = 0
  · rw [ofNat, if_pos positive, value_zero, positive, Nat.cast_zero]
  have digits : n.log2 ≤ format.fractionBits :=
    Nat.lt_succ_iff.mp ((Nat.log2_lt positive).mpr fits)
  obtain ⟨leading, below⟩ := shifted_bounds positive fits
  rw [ofNat, if_neg positive]
  generalize shifted : n * 2 ^ (format.fractionBits - n.log2) = m at leading below
  have rest : m - 2 ^ format.fractionBits < 2 ^ format.fractionBits := by omega
  have exponents : ((format.bias + n.log2) * 2 ^ format.fractionBits +
      (m - 2 ^ format.fractionBits)) / 2 ^ format.fractionBits = format.bias + n.log2 := by
    rw [Nat.mul_comm, Nat.mul_add_div (Nat.two_pow_pos _), Nat.div_eq_of_lt rest, Nat.add_zero]
  have small : format.bias + n.log2 < 2 ^ format.exponentBits := by omega
  have exponent : format.exponent ((format.bias + n.log2) * 2 ^ format.fractionBits +
      (m - 2 ^ format.fractionBits)) = format.bias + n.log2 := by
    rw [Format.exponent, exponents, Nat.mod_eq_of_lt small]
  have fraction : format.fraction ((format.bias + n.log2) * 2 ^ format.fractionBits +
      (m - 2 ^ format.fractionBits)) = m - 2 ^ format.fractionBits := by
    rw [Format.fraction, Nat.mul_comm, Nat.mul_add_mod, Nat.mod_eq_of_lt rest]
  have sign : format.negative ((format.bias + n.log2) * 2 ^ format.fractionBits +
      (m - 2 ^ format.fractionBits)) = false := by
    rw [negative, pow_add, ← Nat.div_div_eq_div_mul, exponents, Nat.div_eq_of_lt small]
    rfl
  have nonzero : format.bias + n.log2 ≠ 0 := by omega
  rw [value, sign, if_neg Bool.false_ne_true, magnitude, exponent, fraction, if_neg nonzero,
    Nat.cast_sub leading, Nat.cast_pow, Nat.cast_ofNat, add_sub_cancel, ← shifted]
  have scale : (2 : ℚ) ^ (format.fractionBits - n.log2) * 2 ^ (format.bias + n.log2) =
      2 ^ (format.bias + format.fractionBits) := by
    rw [← pow_add]
    congr 1
    omega
  rw [Nat.cast_mul, Nat.cast_pow, Nat.cast_ofNat, mul_assoc, scale]
  exact mul_div_cancel_right₀ _ (pow_ne_zero _ two_ne_zero)

end Format
end Carbond.Ieee
