import CppEtudes.Decimal.Model.Decimal
import Mathlib.Algebra.Order.Ring.Int
import Mathlib.Tactic.Common

/-!
# Decimals, their signs and their products

Numbers in the range of the decimals, absolute values and signs, and when
a product is too large: the count of the leading zeros never says more
than the division does.
-/

namespace CppEtudes

namespace Decimal

/-- A decimal in its range. -/
structure Value where
  val : ℤ
  min_le : minDecimalValue ≤ val
  le_max : val ≤ maxDecimalValue

theorem maxDecimalValue_eq : maxDecimalValue = 10 ^ 27 - 1 := rfl

theorem Value.natAbs_lt (x : Value) : x.val.natAbs < 10 ^ 27 := by
  have h₁ := x.min_le
  have h₂ := x.le_max
  rw [minDecimalValue, maxDecimalValue_eq] at h₁
  rw [maxDecimalValue_eq] at h₂
  omega

theorem wrap128_of_lt {x : ℤ} (h₁ : -2 ^ 127 ≤ x) (h₂ : x < 2 ^ 127) : wrap128 x = x := by
  rw [wrap128, Int.emod_eq_of_lt (by omega) (by omega)]
  omega

theorem toUnsigned_natCast {n : ℕ} (h : n < 2 ^ 128) : toUnsigned n = n := by
  rw [toUnsigned]
  omega

/-! ## Signs -/

theorem abs_eq_natAbs {x : ℤ} (h : x.natAbs < 2 ^ 127) : abs x = x.natAbs := by
  rw [abs]
  by_cases hneg : x < 0
  · rw [if_pos hneg, wrap128_of_lt (by omega) (by omega)]
    omega
  · rw [if_neg hneg]
    omega

theorem Value.abs_eq_natAbs (x : Value) : abs x.val = x.val.natAbs := by
  have hlt := x.natAbs_lt
  exact Decimal.abs_eq_natAbs (by omega)

theorem isPositive_iff {x y : ℤ} : isPositive x y = true ↔ 0 < x * y := by
  rw [mul_pos_iff]
  simp only [isPositive, Bool.or_eq_true, Bool.and_eq_true, decide_eq_true_eq]

section Signed

variable {op : ℤ → ℤ → Error × ℤ} {x y : Value} {r : ℕ}

theorem signed_of_zero (h : x.val = 0 ∨ y.val = 0) : signed op x.val y.val = 0 := if_pos h

/-- **The sign is put back.** -/
theorem signed_of_pos (h : 0 < x.val * y.val) (hop : (op x.val.natAbs y.val.natAbs).2 = r) :
    signed op x.val y.val = r := by
  have hzero : ¬ (x.val = 0 ∨ y.val = 0) := fun hzero => h.ne' (mul_eq_zero.2 hzero)
  rw [signed, if_neg hzero, x.abs_eq_natAbs, y.abs_eq_natAbs, if_pos (isPositive_iff.2 h), hop]

theorem signed_of_neg (h : x.val * y.val < 0) (hr : r < 2 ^ 127)
    (hop : (op x.val.natAbs y.val.natAbs).2 = r) : signed op x.val y.val = -r := by
  have hzero : ¬ (x.val = 0 ∨ y.val = 0) := fun hzero => h.ne (mul_eq_zero.2 hzero)
  rw [signed, if_neg hzero, x.abs_eq_natAbs, y.abs_eq_natAbs, if_neg (mt isPositive_iff.1 h.asymm),
    hop, wrap128_of_lt (by omega) (by omega)]

end Signed

/-! ## Products that are too large -/

/-- The highest bit of a number is not below the leading zeros. -/
theorem two_pow_le_of_clz128 {v : ℕ} (h₀ : v ≠ 0) (h : v < 2 ^ 128) :
    2 ^ (127 - clz128 v) ≤ v := by
  rw [clz128, if_neg h₀]
  by_cases hshifted : v >>> 64 ≠ 0
  · have hhigh : v >>> 64 = v / 2 ^ 64 := Nat.shiftRight_eq_div_pow ..
    have hlog : Nat.log2 (v >>> 64) < 64 := (Nat.log2_lt hshifted).2 (by omega)
    have hle : 2 ^ Nat.log2 (v >>> 64) ≤ v / 2 ^ 64 := hhigh ▸ Nat.log2_self_le hshifted
    rw [if_pos hshifted, builtinClzll,
      show 127 - (63 - Nat.log2 (v >>> 64)) = Nat.log2 (v >>> 64) + 64 by omega, Nat.pow_add]
    omega
  · rw [if_neg hshifted, builtinClzll]
    exact (Nat.pow_le_pow_right (by omega) (by omega)).trans (Nat.log2_self_le h₀)

/-- **The product has more than 127 bits** where its guard says so: the
leading zeros are too few only then. -/
theorem overflows_iff {a b : ℕ} (ha₀ : 0 < a) (hb₀ : 0 < b) (ha : a < 2 ^ 127) (hb : b < 2 ^ 127) :
    clz128 (toUnsigned a) + clz128 (toUnsigned b) < 16 ∨ max128.tdiv a < b ↔
      2 ^ 127 ≤ a * b := by
  have hmax : max128 = ((2 ^ 127 - 1 : ℕ) : ℤ) := rfl
  rw [toUnsigned_natCast (by omega), toUnsigned_natCast (by omega), hmax, ← Int.ofNat_tdiv,
    Int.ofNat_lt, Nat.div_lt_iff_lt_mul ha₀, Nat.mul_comm b]
  refine ⟨?_, fun h => Or.inr (by omega)⟩
  rintro (hzeros | hdiv)
  · calc 2 ^ 127 ≤ 2 ^ ((127 - clz128 a) + (127 - clz128 b)) :=
          Nat.pow_le_pow_right (by omega) (by omega)
      _ = 2 ^ (127 - clz128 a) * 2 ^ (127 - clz128 b) := Nat.pow_add ..
      _ ≤ a * b := Nat.mul_le_mul (two_pow_le_of_clz128 (by omega) (by omega))
          (two_pow_le_of_clz128 (by omega) (by omega))
  · omega

end Decimal

end CppEtudes
