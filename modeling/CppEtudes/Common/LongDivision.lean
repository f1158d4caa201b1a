import Mathlib.Algebra.Order.Ring.Nat
import Mathlib.Tactic.Common
import Mathlib.Tactic.Ring

/-!
# Long division by two digits

One digit of a quotient in a base `B`: the dividend is `u * B + w`, with
`w` its last digit, and the divisor `v₁ * B + v₀` is larger than `u`. The
digit is estimated by `u / v₁`, and the estimate is corrected downwards
with the digit `v₀`. It is never too small; where `v₁` is at least half of
the base, two corrections are enough.
-/

namespace CppEtudes

namespace LongDivision

variable {B u w v₁ v₀ q r : ℕ}

/-- The quotient digit. -/
def digit (B u w v₁ v₀ : ℕ) : ℕ := (u * B + w) / (v₁ * B + v₀)

/-- The corrections of an estimate `q` with the remainder `r`, at most
`rounds` of them. -/
def correct (B w v₁ v₀ : ℕ) : ℕ → ℕ → ℕ → Option ℕ
  | rounds, q, r =>
    if B ≤ q ∨ B * r + w < q * v₀ then
      match rounds with
      | 0 => none
      | rounds + 1 =>
        if B ≤ r + v₁ then some (q - 1) else correct B w v₁ v₀ rounds (q - 1) (r + v₁)
    else some q

theorem digit_lt (hu : u < v₁ * B + v₀) (hw : w < B) : digit B u w v₁ v₀ < B := by
  refine Nat.div_lt_of_lt_mul ?_
  have hle : (u + 1) * B ≤ (v₁ * B + v₀) * B := Nat.mul_le_mul_right _ hu
  rw [Nat.succ_mul] at hle
  omega

/-- **The test of a correction** finds the estimates that are too large. -/
theorem digit_lt_iff (hu : u < v₁ * B + v₀) (hw : w < B) (hq : q * v₁ + r = u) :
    (B ≤ q ∨ B * r + w < q * v₀) ↔ digit B u w v₁ v₀ < q := by
  have htest : digit B u w v₁ v₀ < q ↔ B * r + w < q * v₀ := by
    have hv : 0 < v₁ * B + v₀ := by omega
    have hsum : u * B + w = q * v₁ * B + (B * r + w) := by
      rw [← hq]
      ring
    have hproduct : q * (v₁ * B + v₀) = q * v₁ * B + q * v₀ := by ring
    rw [digit, Nat.div_lt_iff_lt_mul hv, hsum, hproduct]
    omega
  rw [htest]
  refine or_iff_right_of_imp fun hB => htest.1 ?_
  exact Nat.lt_of_lt_of_le (digit_lt hu hw) hB

theorem digit_le_estimate (hw : w < B) (hv : 0 < v₁) :
    digit B u w v₁ v₀ ≤ u / v₁ := by
  by_contra hlt
  -- the product of the digit and the divisor is at most the dividend
  have hle : digit B u w v₁ v₀ * (v₁ * B + v₀) ≤ u * B + w := Nat.div_mul_le_self _ _
  have hestimate : u + 1 ≤ digit B u w v₁ v₀ * v₁ := by
    have := Nat.lt_mul_div_succ u hv
    have hstep : v₁ * (u / v₁ + 1) ≤ v₁ * digit B u w v₁ v₀ := Nat.mul_le_mul_left _ (by omega)
    rw [Nat.mul_comm _ v₁]
    omega
  have hB : (u + 1) * B ≤ digit B u w v₁ v₀ * v₁ * B := Nat.mul_le_mul_right _ hestimate
  rw [Nat.mul_add, ← Nat.mul_assoc] at hle
  rw [Nat.succ_mul] at hB
  omega

theorem estimate_le (hu : u < v₁ * B + v₀) (hv₀ : v₀ < B) (hnorm : B ≤ 2 * v₁) :
    u / v₁ ≤ B + 1 := by
  refine Nat.le_of_lt_succ (Nat.div_lt_of_lt_mul ?_)
  rw [show v₁ * (B + 1 + 1) = v₁ * B + 2 * v₁ by ring]
  omega

/-- An estimate is right at the end of the corrections where the remainder
has left the base. -/
theorem le_digit_of_le (hv : 0 < v₁ * B + v₀) (hv₀ : v₀ < B) (hqB : q ≤ B)
    (hq : q * v₁ + r = u) (hr : B ≤ r) : q ≤ digit B u w v₁ v₀ := by
  rw [digit, Nat.le_div_iff_mul_le hv, ← hq]
  have h₁ : q * v₀ ≤ B * B := Nat.mul_le_mul hqB (by omega)
  have h₂ : B * B ≤ r * B := Nat.mul_le_mul_right _ hr
  calc q * (v₁ * B + v₀) = q * v₁ * B + q * v₀ := by ring
    _ ≤ q * v₁ * B + r * B + w := by omega
    _ = (q * v₁ + r) * B + w := by ring

/-- **The corrections end at the digit**: each adds `v₁` to the remainder,
and stops where it leaves the base. -/
theorem correct_eq (hu : u < v₁ * B + v₀) (hw : w < B) (hv₀ : v₀ < B) (rounds : ℕ) :
    ∀ {q r : ℕ}, q ≤ B + 1 → q * v₁ + r = u → digit B u w v₁ v₀ ≤ q → B ≤ r + rounds * v₁ →
      r < B → correct B w v₁ v₀ rounds q r = some (digit B u w v₁ v₀) := by
  induction rounds with
  | zero =>
    intro q r _ _ _ hB hr
    omega
  | succ rounds ih =>
    intro q r hqB hq hle hB hr
    rw [correct]
    by_cases htest : B ≤ q ∨ B * r + w < q * v₀
    · have hlt := (digit_lt_iff hu hw hq).1 htest
      have hq' : (q - 1) * v₁ + (r + v₁) = u := by
        obtain ⟨p, rfl⟩ : ∃ p, q = p + 1 := ⟨q - 1, by omega⟩
        rw [← hq, Nat.add_sub_cancel]
        ring
      rw [if_pos htest]
      by_cases hbreak : B ≤ r + v₁
      · have := le_digit_of_le (w := w) (by omega) hv₀ (by omega) hq' hbreak
        rw [if_pos hbreak, show q - 1 = digit B u w v₁ v₀ by omega]
      · rw [Nat.succ_mul] at hB
        rw [if_neg hbreak, ih (by omega) hq' (by omega) (by omega) (by omega)]
    · have := mt (digit_lt_iff hu hw hq).2 htest
      rw [if_neg htest, show q = digit B u w v₁ v₀ by omega]

/-- **Two corrections are enough** for the estimate `u / v₁`. -/
theorem correct_estimate (hu : u < v₁ * B + v₀) (hw : w < B) (hv₀ : v₀ < B) (hv₁ : v₁ < B)
    (hnorm : B ≤ 2 * v₁) (n : ℕ) :
    correct B w v₁ v₀ (n + 2) (u / v₁) (u - u / v₁ * v₁) = some (digit B u w v₁ v₀) := by
  have hpos : 0 < v₁ := by omega
  have hsplit := Nat.div_add_mod' u v₁
  have hmod := Nat.mod_lt u hpos
  have hrounds : 2 * v₁ ≤ (n + 2) * v₁ := Nat.mul_le_mul_right _ (by omega)
  exact correct_eq hu hw hv₀ (n + 2) (estimate_le hu hv₀ hnorm) (by omega)
    (digit_le_estimate hw hpos) (by omega) (by omega)

/-- Two digits of a quotient, from the two last digits of the dividend. -/
theorem digit_digit (B v : ℕ) (hv : 0 < v) (u w₁ w₀ : ℕ) :
    (u * B + w₁) / v * B + ((u * B + w₁) % v * B + w₀) / v = (u * (B * B) + (w₁ * B + w₀)) / v ∧
      ((u * B + w₁) % v * B + w₀) % v = (u * (B * B) + (w₁ * B + w₀)) % v := by
  have hsplit := Nat.div_add_mod' (u * B + w₁) v
  have hsum : u * (B * B) + (w₁ * B + w₀) =
      (u * B + w₁) % v * B + w₀ + v * ((u * B + w₁) / v * B) := by
    calc u * (B * B) + (w₁ * B + w₀) = (u * B + w₁) * B + w₀ := by ring
      _ = ((u * B + w₁) / v * v + (u * B + w₁) % v) * B + w₀ := by rw [hsplit]
      _ = _ := by ring
  rw [hsum, Nat.add_mul_div_left _ _ hv, Nat.add_mul_mod_self_left, Nat.add_comm]
  exact ⟨rfl, rfl⟩

end LongDivision

end CppEtudes
