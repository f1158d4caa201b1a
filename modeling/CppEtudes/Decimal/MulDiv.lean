import CppEtudes.Common.Rounding
import CppEtudes.Decimal.Value
import Mathlib.Data.Rat.Floor

/-!
# Products and quotients of decimals

`mul` rounds to the nearest billionth and clamps before it rounds: a
product that is rounded up to `10 ^ 27` leaves the range. `div` compares
the remainder with half the divisor rounded down: a remainder just below
half an odd divisor is rounded up. It does not clamp: a quotient by a
small number leaves the range.
-/

namespace CppEtudes

namespace Decimal

open Rounding

theorem rounded_natCast {q r half : ℕ} (hq : q < 2 ^ 126) :
    (rounded q r half).2 = ((q + if r ≠ 0 ∧ half ≤ r then 1 else 0 : ℕ) : ℤ) := by
  have hwrap : wrap128 ((q : ℤ) + 1) = ((q + 1 : ℕ) : ℤ) := wrap128_of_lt (by omega) (by omega)
  by_cases hr : r = 0
  · rw [rounded, if_neg (by omega), if_neg (by omega), Nat.add_zero]
  by_cases hhalf : half ≤ r
  · rw [rounded, if_pos (by omega), if_pos (by omega), if_pos ⟨hr, hhalf⟩, hwrap]
  · rw [rounded, if_pos (by omega), if_neg (by omega), if_neg fun h => hhalf h.2, Nat.add_zero]

/-! ## `do_mul` -/

/-- The result of `do_mul` for a product of `n`. -/
def product (n : ℕ) : ℕ := if 10 ^ 36 ≤ n then 10 ^ 27 - 1 else roundDiv n (10 ^ 9)

theorem doMul_eq {a b : ℕ} (ha : 0 < a) (hb : 0 < b) (ha' : a < 10 ^ 27) (hb' : b < 10 ^ 27) :
    (doMul a b).2 = product (a * b) := by
  have hguard := overflows_iff ha hb (by omega) (by omega)
  have hbillion : oneBillion = ((10 ^ 9 : ℕ) : ℤ) := rfl
  have hmax : maxDecimalValue = ((10 ^ 27 - 1 : ℕ) : ℤ) := rfl
  by_cases hbig : 2 ^ 127 ≤ a * b
  · rw [doMul, if_pos (hguard.2 hbig), product, if_pos (by omega), hmax]
  have hproduct : wrap128 ((a : ℤ) * b) = ((a * b : ℕ) : ℤ) := by
    rw [← Int.natCast_mul]
    exact wrap128_of_lt (by omega) (by omega)
  simp only [doMul, if_neg (mt hguard.1 hbig), hproduct, hbillion, hmax,
    ← Int.ofNat_tdiv, ← Int.ofNat_tmod, Int.ofNat_lt]
  by_cases hover : 10 ^ 36 ≤ a * b
  · rw [if_pos (by omega), product, if_pos hover]
  · have hhalf : ((10 ^ 9 : ℕ) : ℤ) >>> (1 : ℕ) = ((5 * 10 ^ 8 : ℕ) : ℤ) := rfl
    have hround : a * b % 10 ^ 9 ≠ 0 ∧ 5 * 10 ^ 8 ≤ a * b % 10 ^ 9 ↔
        10 ^ 9 ≤ 2 * (a * b % 10 ^ 9) := by omega
    rw [if_neg (by omega), hhalf, rounded_natCast (by omega), product, if_neg hover, roundDiv]
    simp only [hround]

/-- The largest product that is rounded into the range. -/
theorem roundDiv_le_iff {n : ℕ} :
    roundDiv n (10 ^ 9) ≤ 10 ^ 27 - 1 ↔ n < 10 ^ 36 - 5 * 10 ^ 8 := by
  rw [roundDiv_eq (by decide)]
  omega

theorem product_lt (n : ℕ) : product n < 2 ^ 127 := by
  rw [product]
  split_ifs with h
  · decide
  · rw [roundDiv_eq (by decide)]
    omega

/-- **The product is the clamped one** unless rounding takes it out of
the range. -/
theorem product_eq_min_iff (n : ℕ) :
    product n = min (10 ^ 27 - 1) (roundDiv n (10 ^ 9)) ↔
      ¬ (10 ^ 36 - 5 * 10 ^ 8 ≤ n ∧ n < 10 ^ 36) := by
  have hle := roundDiv_le_iff (n := n)
  rw [product]
  by_cases h : 10 ^ 36 ≤ n
  · rw [if_pos h]
    omega
  · rw [if_neg h]
    omega

/-! ## `mul` -/

/-- Clamped to the range. -/
def clamp (n : ℤ) : ℤ := max minDecimalValue (min maxDecimalValue n)

theorem clamp_natCast (n : ℕ) : clamp n = min (10 ^ 27 - 1) n := by
  rw [clamp, minDecimalValue, maxDecimalValue_eq]
  omega

theorem clamp_neg_natCast (n : ℕ) : clamp (-n) = -min (10 ^ 27 - 1) n := by
  rw [clamp, minDecimalValue, maxDecimalValue_eq]
  omega

theorem mul_of_nonneg {x y : Value} (h : 0 ≤ x.val * y.val) :
    mul x.val y.val = product (x.val * y.val).natAbs := by
  rcases h.eq_or_lt with hzero | hpos
  · rw [← hzero, mul, signed_of_zero (mul_eq_zero.1 hzero.symm)]
    rfl
  · have hx : x.val ≠ 0 := left_ne_zero_of_mul hpos.ne'
    have hy : y.val ≠ 0 := right_ne_zero_of_mul hpos.ne'
    rw [Int.natAbs_mul]
    exact signed_of_pos hpos
      (doMul_eq (Int.natAbs_pos.2 hx) (Int.natAbs_pos.2 hy) x.natAbs_lt y.natAbs_lt)

theorem mul_of_neg {x y : Value} (h : x.val * y.val < 0) :
    mul x.val y.val = -product (x.val * y.val).natAbs := by
  have hx : x.val ≠ 0 := left_ne_zero_of_mul h.ne
  have hy : y.val ≠ 0 := right_ne_zero_of_mul h.ne
  rw [Int.natAbs_mul]
  exact signed_of_neg h (product_lt _)
    (doMul_eq (Int.natAbs_pos.2 hx) (Int.natAbs_pos.2 hy) x.natAbs_lt y.natAbs_lt)

theorem mul_div_billion (x y : ℤ) : (x : ℚ) * y / 10 ^ 9 = ((x * y : ℤ) : ℚ) / ((10 ^ 9 : ℤ) : ℚ) := by
  push_cast
  rfl

/-- **`mul`** is the product rounded to the nearest billionth and
clamped, unless rounding takes it out of the range. -/
theorem mul_eq_clamp_iff (x y : Value) :
    mul x.val y.val = clamp (halfAway ((x.val : ℚ) * y.val / 10 ^ 9)) ↔
      ¬ (10 ^ 36 - 5 * 10 ^ 8 ≤ |x.val * y.val| ∧ |x.val * y.val| < 10 ^ 36) := by
  have hbillion : (10 ^ 9 : ℤ) ≠ 0 := by decide
  have hiff := product_eq_min_iff (x.val * y.val).natAbs
  have hnat : (10 ^ 9 : ℤ).natAbs = 10 ^ 9 := rfl
  rw [mul_div_billion, Int.abs_eq_natAbs]
  rcases lt_or_ge (x.val * y.val) 0 with hneg | hnonneg
  · rw [mul_of_neg hneg, halfAway_div_of_nonpos hbillion (by omega), hnat, clamp_neg_natCast]
    omega
  · rw [mul_of_nonneg hnonneg, halfAway_div_of_nonneg hbillion (by omega), hnat, clamp_natCast]
    omega

/-- `999999999.999999999 * 1000000000.000000001` is just below `10 ^ 18`,
and is rounded out of the range. -/
theorem mul_rounded_up :
    mul (10 ^ 18 - 1) (10 ^ 18 + 1) = 10 ^ 27 ∧
      clamp (halfAway (((10 ^ 18 - 1 : ℤ) : ℚ) * ((10 ^ 18 + 1 : ℤ) : ℚ) / 10 ^ 9)) = 10 ^ 27 - 1 := by
  refine ⟨by decide +kernel, ?_⟩
  rw [mul_div_billion, halfAway_div_of_nonneg (by decide) (by decide)]
  decide +kernel

/-! ## `div` -/

/-- The result of `do_div` for a dividend of `a`. -/
def quotient (a b : ℕ) : ℕ := a / b + if a % b ≠ 0 ∧ b / 2 ≤ a % b then 1 else 0

theorem doDiv_eq {a b : ℕ} (ha : a < 10 ^ 27) : (doDiv a b).2 = quotient (a * 10 ^ 9) b := by
  have hbillion : oneBillion = ((10 ^ 9 : ℕ) : ℤ) := rfl
  have hdividend : wrap128 ((a : ℤ) * oneBillion) = ((a * 10 ^ 9 : ℕ) : ℤ) := by
    rw [hbillion, ← Int.natCast_mul]
    exact wrap128_of_lt (by omega) (by omega)
  have hhalf : (b : ℤ) >>> (1 : ℕ) = ((b / 2 : ℕ) : ℤ) := by
    rw [Int.shiftRight_eq_div_pow]
    rfl
  have hlt : a * 10 ^ 9 / b < 2 ^ 126 := (Nat.div_le_self ..).trans_lt (by omega)
  simp only [doDiv, hdividend, hhalf, ← Int.ofNat_tdiv, ← Int.ofNat_tmod]
  exact rounded_natCast hlt

/-- **The quotient is the nearest one** unless the remainder is just
below half an odd divisor. -/
theorem quotient_eq_roundDiv_iff {a b : ℕ} (hb : 0 < b) :
    quotient a b = roundDiv a b ↔ ¬ (2 * (a % b) + 1 = b ∧ b ≠ 1) := by
  have hmod := Nat.mod_lt a hb
  rw [quotient, roundDiv]
  split_ifs <;> omega

theorem quotient_lt {a b : ℕ} (ha : a < 2 ^ 126) : quotient a b < 2 ^ 127 := by
  have hle := Nat.div_le_self a b
  rw [quotient]
  split_ifs <;> omega

section Quotients

variable {x y : Value}

theorem div_of_nonneg (hy : y.val ≠ 0) (h : 0 ≤ x.val * y.val) :
    div x.val y.val = quotient (x.val.natAbs * 10 ^ 9) y.val.natAbs := by
  rcases h.eq_or_lt with hzero | hpos
  · have hx : x.val = 0 := (mul_eq_zero.1 hzero.symm).resolve_right hy
    rw [div, signed_of_zero (.inl hx), hx, Int.natAbs_zero, Nat.zero_mul, quotient, Nat.zero_div,
      Nat.zero_mod, if_neg fun h => h.1 rfl]
    rfl
  · exact signed_of_pos hpos (doDiv_eq x.natAbs_lt)

theorem div_of_neg (h : x.val * y.val < 0) :
    div x.val y.val = -quotient (x.val.natAbs * 10 ^ 9) y.val.natAbs := by
  have hx := x.natAbs_lt
  exact signed_of_neg h (quotient_lt (by omega)) (doDiv_eq hx)

/-- **`div`** is the nearest integer, unless the remainder is just below
half an odd divisor. -/
theorem div_eq_halfAway_iff (hy : y.val ≠ 0) :
    div x.val y.val = halfAway ((x.val : ℚ) * 10 ^ 9 / y.val) ↔
      ¬ (2 * (|x.val| * 10 ^ 9 % |y.val|) + 1 = |y.val| ∧ |y.val| ≠ 1) := by
  have hcast : (x.val : ℚ) * 10 ^ 9 / y.val = ((x.val * 10 ^ 9 : ℤ) : ℚ) / (y.val : ℚ) := by
    push_cast
    rfl
  have hiff := quotient_eq_roundDiv_iff (a := x.val.natAbs * 10 ^ 9) (Int.natAbs_pos.2 hy)
  have hnat : (x.val * 10 ^ 9).natAbs = x.val.natAbs * 10 ^ 9 := Int.natAbs_mul ..
  have hsign : x.val * 10 ^ 9 * y.val = 10 ^ 9 * (x.val * y.val) := by ring
  have hmod : (x.val.natAbs : ℤ) * 10 ^ 9 % y.val.natAbs =
      ((x.val.natAbs * 10 ^ 9 % y.val.natAbs : ℕ) : ℤ) := by
    push_cast
    rfl
  rw [hcast, Int.abs_eq_natAbs, Int.abs_eq_natAbs, hmod]
  rcases lt_or_ge (x.val * y.val) 0 with hneg | hnonneg
  · rw [div_of_neg hneg, halfAway_div_of_nonpos hy (by omega), hnat]
    omega
  · rw [div_of_nonneg hy hnonneg, halfAway_div_of_nonneg hy (by omega), hnat]
    omega

end Quotients

/-- The witness: half a billionth. -/
theorem div_eq_halfAway_iff_half :
    div 1 2000000000 = halfAway (((1 : ℤ) : ℚ) * 10 ^ 9 / ((2000000000 : ℤ) : ℚ)) := by
  have hiff := @div_eq_halfAway_iff ⟨1, by decide, by decide⟩ ⟨2000000000, by decide, by decide⟩
    (by decide)
  exact hiff.2 (by decide)

/-- A third is rounded up. -/
theorem div_third :
    div 1 3 = 333333334 ∧ halfAway (((1 : ℤ) : ℚ) * 10 ^ 9 / ((3 : ℤ) : ℚ)) = 333333333 := by
  have hcast : ((1 : ℤ) : ℚ) * 10 ^ 9 / ((3 : ℤ) : ℚ) = ((10 ^ 9 : ℤ) : ℚ) / ((3 : ℤ) : ℚ) := by
    norm_num
  refine ⟨by decide +kernel, ?_⟩
  rw [hcast, halfAway_div_of_nonneg (by decide) (by decide)]
  decide +kernel

/-! ## The range of `div` -/

/-- The largest dividend whose quotient is in the range. For a divisor of
one the dividend is not `10 ^ 27 - 1`, as it is a number of billions. -/
theorem quotient_le_iff {a b : ℕ} (hb : 0 < b) :
    quotient (a * 10 ^ 9) b ≤ 10 ^ 27 - 1 ↔ a * 10 ^ 9 + (b + 1) / 2 < 10 ^ 27 * b := by
  obtain ⟨n, hn⟩ : ∃ n, n = a * 10 ^ 9 := ⟨_, rfl⟩
  rw [← hn, quotient]
  have hmod := Nat.mod_lt n hb
  have hsplit := Nat.div_add_mod n b
  rcases Nat.lt_trichotomy (n / b) (10 ^ 27 - 1) with hlt | heq | hgt
  · have hle : b * (n / b + 1) ≤ b * (10 ^ 27 - 1) := Nat.mul_le_mul_left _ hlt
    rw [Nat.mul_succ] at hle
    split_ifs <;> omega
  · rw [heq] at hsplit
    split_ifs <;> omega
  · have hle : b * 10 ^ 27 ≤ b * (n / b) := Nat.mul_le_mul_left _ (by omega)
    split_ifs <;> omega

/-- **The quotient is in the range** where the divisor is not too small. -/
theorem div_inRange_iff {x y : Value} (hy : y.val ≠ 0) :
    minDecimalValue ≤ div x.val y.val ∧ div x.val y.val ≤ maxDecimalValue ↔
      |x.val| * 10 ^ 9 + (|y.val| + 1) / 2 < 10 ^ 27 * |y.val| := by
  have hiff := quotient_le_iff (a := x.val.natAbs) (Int.natAbs_pos.2 hy)
  rw [minDecimalValue, maxDecimalValue_eq, Int.abs_eq_natAbs, Int.abs_eq_natAbs]
  rcases lt_or_ge (x.val * y.val) 0 with hneg | hnonneg
  · rw [div_of_neg hneg]
    omega
  · rw [div_of_nonneg hy hnonneg]
    omega

/-- The witness: one by three. -/
theorem div_inRange_iff_third :
    minDecimalValue ≤ div 1000000000 3000000000 ∧
      div 1000000000 3000000000 ≤ maxDecimalValue := by
  have hiff := @div_inRange_iff ⟨1000000000, by decide, by decide⟩ ⟨3000000000, by decide, by decide⟩
    (by decide)
  exact hiff.2 (by decide)

/-- A billion by a billionth is out of the range. -/
theorem div_billionth : div (10 ^ 18) 1 = 10 ^ 27 ∧ maxDecimalValue < 10 ^ 27 := by
  decide +kernel

end Decimal

end CppEtudes
