-- SUMMARY: Double precision numbers as bit patterns: their values, and the patterns of small natural numbers.
import Mathlib.Algebra.Order.Field.Rat
import Mathlib.Data.UInt
import Mathlib.Tactic.NormNum

/-!
# Double precision

A double is its 64-bit pattern: a sign, eleven bits of exponent and 52 bits of
fraction. `value` is the number that a finite pattern denotes. `ofNat` is the
conversion of an integer, which is exact below 2^53.
-/

namespace Binary64

def sign (bits : UInt64) : Nat := bits.toNat / 2 ^ 63

def exponent (bits : UInt64) : Nat := bits.toNat / 2 ^ 52 % 2 ^ 11

def fraction (bits : UInt64) : Nat := bits.toNat % 2 ^ 52

/-- The number that a pattern with an exponent below 2047 denotes. -/
def value (bits : UInt64) : ℚ :=
  let magnitude : ℚ :=
    if exponent bits = 0 then fraction bits * 2 ^ (-1074 : ℤ)
    else (2 ^ 52 + fraction bits : ℕ) * 2 ^ ((exponent bits : ℤ) - 1075)
  if sign bits = 0 then magnitude else -magnitude

/-- The pattern of a natural number below 2^53. -/
def ofNat (n : Nat) : UInt64 :=
  if n = 0 then 0
  else UInt64.ofNat ((1023 + n.log2) * 2 ^ 52 + (n - 2 ^ n.log2) * 2 ^ (52 - n.log2))

section Normal

variable {n : Nat} (h : n ≠ 0) (hlt : n < 2 ^ 53)

include h hlt

/-- The leading bit is at place 52 at most. -/
theorem log2_le : n.log2 ≤ 52 := by
  have hpow := (Nat.log2_lt h).mpr hlt
  omega

/-- The bits below the leading one, moved up to the top of the fraction. -/
theorem fraction_lt : (n - 2 ^ n.log2) * 2 ^ (52 - n.log2) < 2 ^ 52 := by
  have hlog := log2_le h hlt
  have hself : n < 2 ^ (n.log2 + 1) := Nat.lt_log2_self
  have hrest : n - 2 ^ n.log2 < 2 ^ n.log2 := by
    rw [Nat.pow_succ] at hself
    omega
  calc (n - 2 ^ n.log2) * 2 ^ (52 - n.log2)
      < 2 ^ n.log2 * 2 ^ (52 - n.log2) :=
        Nat.mul_lt_mul_of_pos_right hrest (Nat.two_pow_pos _)
    _ = 2 ^ 52 := by rw [← Nat.pow_add, Nat.add_sub_cancel' hlog]

theorem toNat_ofNat :
    (ofNat n).toNat = (1023 + n.log2) * 2 ^ 52 + (n - 2 ^ n.log2) * 2 ^ (52 - n.log2) := by
  have hlog := log2_le h hlt
  have hfraction := fraction_lt h hlt
  rw [ofNat, if_neg h, UInt64.toNat_ofNat', Nat.mod_eq_of_lt]
  omega

theorem sign_ofNat : sign (ofNat n) = 0 := by
  have hlog := log2_le h hlt
  have hfraction := fraction_lt h hlt
  rw [sign, toNat_ofNat h hlt]
  omega

theorem exponent_ofNat : exponent (ofNat n) = 1023 + n.log2 := by
  have hlog := log2_le h hlt
  have hfraction := fraction_lt h hlt
  rw [exponent, toNat_ofNat h hlt]
  omega

theorem fraction_ofNat : fraction (ofNat n) = (n - 2 ^ n.log2) * 2 ^ (52 - n.log2) := by
  rw [fraction, toNat_ofNat h hlt, Nat.mul_add_mod']
  exact Nat.mod_eq_of_lt (fraction_lt h hlt)

/-- With its leading bit the fraction is the number moved up. -/
theorem significand_ofNat : 2 ^ 52 + fraction (ofNat n) = n * 2 ^ (52 - n.log2) := by
  have hlog := log2_le h hlt
  have hle := Nat.log2_self_le h
  calc 2 ^ 52 + fraction (ofNat n)
      = 2 ^ n.log2 * 2 ^ (52 - n.log2) + (n - 2 ^ n.log2) * 2 ^ (52 - n.log2) := by
        rw [fraction_ofNat h hlt, ← Nat.pow_add, Nat.add_sub_cancel' hlog]
    _ = n * 2 ^ (52 - n.log2) := by rw [← Nat.add_mul, Nat.add_sub_cancel' hle]

end Normal

/-- The conversion is exact. -/
theorem value_ofNat {n : Nat} (hlt : n < 2 ^ 53) : value (ofNat n) = n := by
  by_cases h : n = 0
  · subst h
    simp [value, ofNat, sign, exponent, fraction]
  have hlog := log2_le h hlt
  have hexp : (52 - n.log2 : ℕ) + (((1023 + n.log2 : ℕ) : ℤ) - 1075) = 0 := by omega
  rw [value, sign_ofNat h hlt, exponent_ofNat h hlt, significand_ofNat h hlt]
  simp only [if_true]
  rw [if_neg (by omega), Nat.cast_mul, Nat.cast_pow, Nat.cast_ofNat, mul_assoc, ← zpow_natCast,
    ← zpow_add₀ (by norm_num), hexp, zpow_zero, mul_one]

/-- Different numbers have different patterns. -/
theorem ofNat_injOn {m n : Nat} (hm : m < 2 ^ 53) (hn : n < 2 ^ 53) (h : ofNat m = ofNat n) :
    m = n := by
  have hvalue := congrArg value h
  rw [value_ofNat hm, value_ofNat hn] at hvalue
  exact Nat.cast_injective hvalue

example : ofNat 31 = 0x403F000000000000 := by decide

end Binary64
