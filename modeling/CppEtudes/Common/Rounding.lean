import Mathlib.Algebra.Order.Floor.Ring
import Mathlib.Algebra.Order.Floor.Semifield
import Mathlib.Tactic.FieldSimp
import Mathlib.Tactic.Ring

/-!
# Rounding to the nearest integer

The nearest integer with halves away from zero, and how it is computed of
a quotient: the quotient of the absolute values, and one more if twice
the remainder reaches the divisor.
-/

namespace CppEtudes

namespace Rounding

/-! ## Natural numbers -/

/-- The nearest integer to `a / b`, with halves up. -/
def roundDiv (a b : ℕ) : ℕ := a / b + if b ≤ 2 * (a % b) then 1 else 0

theorem roundDiv_eq {a b : ℕ} (hb : 0 < b) : roundDiv a b = (2 * a + b) / (2 * b) := by
  have hmod := Nat.mod_lt a hb
  have hsplit : 2 * a + b = (2 * (a % b) + b) + 2 * b * (a / b) := by
    rw [Nat.mul_assoc]
    have := Nat.mod_add_div a b
    omega
  rw [hsplit, Nat.add_mul_div_left _ _ (by omega), roundDiv, Nat.add_comm]
  congr 1
  by_cases h : b ≤ 2 * (a % b)
  · rw [if_pos h]
    exact (Nat.div_eq_of_lt_le (by omega) (by omega)).symm
  · rw [if_neg h]
    exact (Nat.div_eq_of_lt (by omega)).symm

/-! ## Fields -/

variable {K : Type*} [Field K] [LinearOrder K] [IsStrictOrderedRing K] [FloorRing K]

/-- **The nearest integer**, halves away from zero. -/
def halfAway (q : K) : ℤ := if 0 ≤ q then ⌊q + 1 / 2⌋ else -⌊-q + 1 / 2⌋

theorem halfAway_neg (q : K) : halfAway (-q) = -halfAway q := by
  rcases lt_trichotomy q 0 with h | rfl | h
  · rw [halfAway, if_pos (neg_nonneg.2 h.le), halfAway, if_neg (not_le.2 h), neg_neg]
  · have hzero : ⌊(0 : K) + 1 / 2⌋ = 0 := by
      rw [Int.floor_eq_zero_iff, Set.mem_Ico]
      constructor <;> norm_num
    rw [neg_zero, halfAway, if_pos le_rfl, hzero, neg_zero]
  · rw [halfAway, if_neg (not_le.2 (neg_lt_zero.2 h)), neg_neg, halfAway, if_pos h.le]

theorem halfAway_natCast_div (a : ℕ) {b : ℕ} (hb : 0 < b) :
    halfAway ((a : K) / b) = roundDiv a b := by
  have hb' : (b : K) ≠ 0 := Nat.cast_ne_zero.2 hb.ne'
  have hsum : (a : K) / b + 1 / 2 = ((2 * a + b : ℕ) : K) / ((2 * b : ℕ) : K) := by
    push_cast
    field_simp
  rw [halfAway, if_pos (by positivity), hsum, roundDiv_eq hb, ← Nat.floor_div_eq_div (K := K),
    Int.natCast_floor_eq_floor (by positivity)]

section Quotients

variable {p d : ℤ}

omit [FloorRing K] in
theorem natAbs_div_natAbs (p d : ℤ) : (p.natAbs : K) / d.natAbs = |(p : K) / d| := by
  rw [abs_div, Nat.cast_natAbs, Nat.cast_natAbs, Int.cast_abs, Int.cast_abs]

/-- **A quotient of integers** is rounded by its absolute values. -/
theorem halfAway_div_of_nonneg (hd : d ≠ 0) (h : 0 ≤ p * d) :
    halfAway ((p : K) / d) = roundDiv p.natAbs d.natAbs := by
  have hquot : 0 ≤ (p : K) / d := by
    rw [div_nonneg_iff]
    exact_mod_cast mul_nonneg_iff.1 h
  rw [← halfAway_natCast_div (K := K) p.natAbs (Int.natAbs_pos.2 hd), natAbs_div_natAbs,
    abs_of_nonneg hquot]

theorem halfAway_div_of_nonpos (hd : d ≠ 0) (h : p * d ≤ 0) :
    halfAway ((p : K) / d) = -roundDiv p.natAbs d.natAbs := by
  have hneg := halfAway_div_of_nonneg (K := K) (p := -p) hd (by rw [neg_mul]; omega)
  rw [Int.cast_neg, neg_div, halfAway_neg, Int.natAbs_neg] at hneg
  omega

end Quotients

end Rounding

end CppEtudes
