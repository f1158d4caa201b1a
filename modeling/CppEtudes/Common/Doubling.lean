import Mathlib.Algebra.Order.Ring.Nat
import Mathlib.Tactic.Common
import Mathlib.Tactic.Ring

/-!
# Doubling

A loop that takes the bits of a number from the low end and makes, for
every bit but the last, one step of the size that was reached by
doubling, or two if the bit is set. Begun with one, it ends with as many
as the number says: after `k` rounds there are `2^k` and the `k` low bits
of the number (`run_spec`).
-/

namespace CppEtudes

namespace Doubling

variable {σ : Type} {body : ℕ → ℕ → σ → Option σ} {P : ℕ → σ → Prop} {s : σ}

/-- The loop, with the bit that was shifted out of `n` last. -/
def loop (body : ℕ → ℕ → σ → Option σ) : ℕ → ℕ → ℕ → ℕ → σ → Option σ
  | 0, _, _, n, s => if 0 < n then none else some s
  | fuel + 1, k, lastBit, n, s =>
    if 0 < n then do
      let s ← body k lastBit s
      loop body fuel (k + 1) (n % 2) (n / 2) s
    else some s

/-- The loop over the bits of `n`; it has no more rounds than `n`. -/
def run (body : ℕ → ℕ → σ → Option σ) (n : ℕ) (s : σ) : Option σ := loop body n 0 (n % 2) (n / 2) s

/-- **A round** goes from `c` to `c + 2^k * (1 + lastBit)`, where `c` is
between `2^k` and `2^(k+1)`. -/
def Rounds (body : ℕ → ℕ → σ → Option σ) (total : ℕ) (P : ℕ → σ → Prop) : Prop :=
  ∀ k lastBit c s, lastBit ≤ 1 → 2 ^ k ≤ c → c < 2 ^ (k + 1) →
    c + 2 ^ k * (1 + lastBit) ≤ total → P c s →
    ∃ s', body k lastBit s = some s' ∧ P (c + 2 ^ k * (1 + lastBit)) s'

/-- The loop with `low` for the bits that are done. -/
theorem loop_spec {total : ℕ} (h : Rounds body total P) (fuel : ℕ) :
    ∀ {k lastBit n : ℕ} (low : ℕ) {s : σ}, n < 2 ^ fuel → lastBit ≤ 1 → low < 2 ^ k →
    total = 2 ^ k * (2 * n + lastBit) + low → 0 < 2 * n + lastBit → P (2 ^ k + low) s →
    ∃ s', loop body fuel k lastBit n s = some s' ∧ P total s' := by
  induction fuel with
  | zero =>
    intro k lastBit n low s hfuel hbit hlow htotal hpos hP
    obtain rfl : n = 0 := by omega
    obtain rfl : lastBit = 1 := by omega
    refine ⟨s, rfl, ?_⟩
    rwa [htotal, Nat.mul_zero, Nat.zero_add, Nat.mul_one]
  | succ fuel ih =>
    intro k lastBit n low s hfuel hbit hlow htotal hpos hP
    rw [loop]
    rcases Nat.eq_zero_or_pos n with rfl | hn
    · obtain rfl : lastBit = 1 := by omega
      refine ⟨s, rfl, ?_⟩
      rwa [htotal, Nat.mul_zero, Nat.zero_add, Nat.mul_one]
    -- the bit goes to the low ones
    have hpow : 2 ^ (k + 1) = 2 * 2 ^ k := by rw [Nat.pow_succ, Nat.mul_comm]
    have hnext : 2 ^ k + low + 2 ^ k * (1 + lastBit) = 2 ^ (k + 1) + (2 ^ k * lastBit + low) := by
      rw [hpow]
      ring
    have hbits : 2 * (n / 2) + n % 2 = n := Nat.div_add_mod n 2
    have htotal' : total = 2 ^ (k + 1) * (2 * (n / 2) + n % 2) + (2 ^ k * lastBit + low) := by
      rw [hbits, htotal, hpow]
      ring
    have hmul : 2 ^ k * lastBit ≤ 2 ^ k * 1 := Nat.mul_le_mul_left _ hbit
    have hle : 2 ^ (k + 1) * 1 ≤ 2 ^ (k + 1) * n := Nat.mul_le_mul_left _ hn
    rw [hbits] at htotal'
    obtain ⟨s', hbody, hP'⟩ := h k lastBit (2 ^ k + low) s hbit (by omega) (by omega)
      (by omega) hP
    rw [hnext] at hP'
    rw [if_pos hn, hbody, Option.bind_eq_bind, Option.bind_some]
    exact ih _ (by rw [Nat.pow_succ] at hfuel; omega) (by omega) (by omega)
      (by rw [hbits]; exact htotal') (by omega) hP'

/-- **Doubling ends at the number itself.** -/
theorem run_spec {n : ℕ} (h : Rounds body n P) (hn : 1 ≤ n) (hP : P 1 s) :
    ∃ s', run body n s = some s' ∧ P n s' := by
  have hlt : n < 2 ^ n := Nat.lt_two_pow_self
  have hbits : 2 * (n / 2) + n % 2 = n := Nat.div_add_mod n 2
  refine loop_spec h n 0 (by omega) (by omega) (by omega) ?_ (by omega) hP
  rw [hbits, Nat.pow_zero, Nat.one_mul, Nat.add_zero]

end Doubling

end CppEtudes
