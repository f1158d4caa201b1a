import Mathlib.Algebra.Order.Ring.Nat
import Mathlib.Tactic.Common
import Mathlib.Tactic.Ring

/-!
# Division by shifting and subtracting

A dividend is compared with a shifted divisor, which is subtracted where
it is not larger, and halved before the next round. Each round gives one
bit of the quotient; with as many rounds as the quotient has bits, what is
left of the dividend is the remainder.
-/

namespace CppEtudes

namespace ShiftSubtract

/-- The rounds, with the quotient so far, the dividend and the divisor of
the next round. -/
def loop : ℕ → ℕ → ℕ → ℕ → ℕ × ℕ
  | 0, q, n, _ => (q, n)
  | rounds + 1, q, n, d =>
    if d ≤ n then loop rounds (2 * q + 1) (n - d) (d / 2) else loop rounds (2 * q) n (d / 2)

/-- **The quotient's bits are appended, and the remainder is left.** -/
theorem loop_eq {b : ℕ} (hb : 0 < b) (rounds : ℕ) : ∀ {q n : ℕ}, n < b * 2 ^ rounds →
    loop rounds q n (b * 2 ^ rounds / 2) = (q * 2 ^ rounds + n / b, n % b) := by
  induction rounds with
  | zero =>
    intro q n hn
    rw [Nat.pow_zero, Nat.mul_one] at hn
    rw [loop, Nat.div_eq_of_lt hn, Nat.mod_eq_of_lt hn, Nat.pow_zero, Nat.mul_one, Nat.add_zero]
  | succ rounds ih =>
    intro q n hn
    have hdivisor : b * 2 ^ (rounds + 1) / 2 = b * 2 ^ rounds := by
      rw [Nat.pow_succ, ← Nat.mul_assoc, Nat.mul_div_cancel _ Nat.two_pos]
    rw [Nat.pow_succ, ← Nat.mul_assoc] at hn
    rw [loop, hdivisor]
    split_ifs with hle
    · obtain ⟨m, rfl⟩ : ∃ m, n = m + b * 2 ^ rounds := ⟨n - b * 2 ^ rounds, by omega⟩
      rw [Nat.add_sub_cancel, ih (by omega), Nat.add_mul_div_left _ _ hb, Nat.add_mul_mod_self_left,
        Nat.pow_succ]
      congr 1
      ring
    · rw [ih (by omega), Nat.pow_succ]
      congr 1
      ring

end ShiftSubtract

end CppEtudes
