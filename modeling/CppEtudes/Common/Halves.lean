import Mathlib.Algebra.Order.Ring.Nat
import Mathlib.Tactic.Common
import Mathlib.Tactic.Ring

/-!
# Products of numbers of two halves

Numbers with a high and a low half in a base `B`. A product has one
partial product for each pair of halves; the product of the low ones is a
number of two halves itself. What counts for the high half of the product
is the sum of the two mixed products and of that high half (`cross`): it
says what the product is in two halves, and how large it is.
-/

namespace CppEtudes

namespace Halves

variable {B H : ℕ} (a₁ a₀ b₁ b₀ : ℕ)

/-- What the partial products add up to in the high half. -/
def cross (B a₁ a₀ b₁ b₀ : ℕ) : ℕ := a₀ * b₁ + b₀ * a₁ + a₀ * b₀ / B

theorem mul_eq (B : ℕ) : (a₁ * B + a₀) * (b₁ * B + b₀) =
    a₁ * b₁ * (B * B) + (cross B a₁ a₀ b₁ b₀ * B + a₀ * b₀ % B) := by
  have hlow : a₀ * b₀ = a₀ * b₀ / B * B + a₀ * b₀ % B := (Nat.div_add_mod' ..).symm
  calc (a₁ * B + a₀) * (b₁ * B + b₀)
      = a₁ * b₁ * (B * B) + (a₀ * b₁ + b₀ * a₁) * B + a₀ * b₀ := by ring
    _ = a₁ * b₁ * (B * B) + (a₀ * b₁ + b₀ * a₁) * B + (a₀ * b₀ / B * B + a₀ * b₀ % B) := by
      rw [← hlow]
    _ = a₁ * b₁ * (B * B) + (cross B a₁ a₀ b₁ b₀ * B + a₀ * b₀ % B) := by
      rw [cross]
      ring

/-- **The product in two halves.** -/
theorem mul_mod (hB : 0 < B) : (a₁ * B + a₀) * (b₁ * B + b₀) % (B * B) =
    cross B a₁ a₀ b₁ b₀ % B * B + a₀ * b₀ % B := by
  have hlow : a₀ * b₀ % B < B := Nat.mod_lt _ hB
  have hhigh : cross B a₁ a₀ b₁ b₀ * B + a₀ * b₀ % B =
      cross B a₁ a₀ b₁ b₀ / B * (B * B) + (cross B a₁ a₀ b₁ b₀ % B * B + a₀ * b₀ % B) := by
    conv_lhs => rw [← Nat.div_add_mod' (cross B a₁ a₀ b₁ b₀) B]
    ring
  have hlt : cross B a₁ a₀ b₁ b₀ % B * B + a₀ * b₀ % B < B * B := by
    have hle : (cross B a₁ a₀ b₁ b₀ % B + 1) * B ≤ B * B :=
      Nat.mul_le_mul_right _ (Nat.mod_lt _ hB)
    rw [Nat.succ_mul] at hle
    omega
  rw [mul_eq, hhigh, Nat.mul_add_mod_self_right, Nat.mul_add_mod_self_right, Nat.mod_eq_of_lt hlt]

/-- **How large the product is**, below a bound on its high half. -/
theorem mul_lt_iff (hB : 0 < B) (hH : H ≤ B) : (a₁ * B + a₀) * (b₁ * B + b₀) < H * B ↔
    (a₁ = 0 ∨ b₁ = 0) ∧ cross B a₁ a₀ b₁ b₀ < H := by
  have hlow : a₀ * b₀ % B < B := Nat.mod_lt _ hB
  rw [mul_eq]
  by_cases hzero : a₁ = 0 ∨ b₁ = 0
  · have hhigh : a₁ * b₁ = 0 := Nat.mul_eq_zero.2 hzero
    rw [hhigh, Nat.zero_mul, Nat.zero_add, and_iff_right hzero]
    refine ⟨fun hlt => ?_, fun hlt => ?_⟩
    · exact Nat.lt_of_mul_lt_mul_right (a := B) (by omega)
    · have hle : (cross B a₁ a₀ b₁ b₀ + 1) * B ≤ H * B := Nat.mul_le_mul_right _ hlt
      rw [Nat.succ_mul] at hle
      omega
  · have hpos : 1 ≤ a₁ * b₁ := Nat.mul_pos (by omega) (by omega)
    have hle : 1 * (B * B) ≤ a₁ * b₁ * (B * B) := Nat.mul_le_mul_right _ hpos
    have hbound : H * B ≤ B * B := Nat.mul_le_mul_right _ hH
    exact iff_of_false (by omega) fun h => hzero h.1

end Halves

end CppEtudes
