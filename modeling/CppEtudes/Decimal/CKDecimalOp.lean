import CppEtudes.Decimal.Model.CKDecimalOp
import Mathlib.Algebra.Order.Ring.Int
import Mathlib.Tactic.Common

/-!
# Products with a check

The check of `mulOverflow` is exact for unsigned numbers: the product of
the absolute values, which has wrapped around, is smaller than it should
be, and its quotient is. But the result is a signed number, with one bit
less: a product between the two limits passes, and has wrapped around.
-/

namespace CppEtudes

namespace Decimal

namespace CKDecimalOp

/-- A number of 128 bits with a sign. -/
def InInt128 (p : ℤ) : Prop := -2 ^ 127 ≤ p ∧ p < 2 ^ 127

instance (p : ℤ) : Decidable (InInt128 p) := inferInstanceAs (Decidable (_ ∧ _))

/-- **A product that is divided back** gives its factor exactly where it
has not wrapped around. -/
theorem mod_div_eq_iff {a b n : ℕ} (hb : 0 < b) (hn : 0 < n) : a * b % n / b = a ↔ a * b < n := by
  refine ⟨fun h => ?_, fun h => ?_⟩
  · have hle : a * b ≤ a * b % n := (Nat.le_div_iff_mul_le hb).1 h.ge
    exact hle.trans_lt (Nat.mod_lt _ hn)
  · rw [Nat.mod_eq_of_lt h, Nat.mul_div_cancel _ hb]

variable {x y : BitVec 128}

theorem toNat_magnitude (x : BitVec 128) : (magnitude x).toNat = x.toInt.natAbs := by
  have hx := x.isLt
  have hval := BitVec.toInt_eq_toNat_cond x
  have hpos : (0#128).slt x = true ↔ 0 < x.toInt := BitVec.slt_iff_toInt_lt
  rw [magnitude]
  by_cases h : 0 < x.toInt
  · rw [if_pos (hpos.2 h)]
    split_ifs at hval <;> omega
  · rw [if_neg (mt hpos.1 h), BitVec.toNat_neg]
    split_ifs at hval <;> omega

theorem mulOverflow_snd (x y : BitVec 128) : (mulOverflow x y).2 = x * y := by
  rw [mulOverflow]
  split_ifs <;> rfl

/-- **What the check says**: the product needs more than 128 bits. -/
theorem mulOverflow_fst : (mulOverflow x y).1 = true ↔ 2 ^ 128 ≤ |x.toInt * y.toInt| := by
  rw [mulOverflow]
  by_cases hzero : x = 0 ∨ y = 0
  · have hmul : x.toInt * y.toInt = 0 := by
      rcases hzero with rfl | rfl
      · exact Int.zero_mul _
      · exact Int.mul_zero _
    rw [if_pos hzero, hmul]
    exact iff_of_false Bool.false_ne_true (by decide)
  · have hy : 0 < y.toInt.natAbs := by
      rw [Int.natAbs_pos, ne_eq, ← BitVec.toInt_zero, BitVec.toInt_inj]
      exact (not_or.1 hzero).2
    have hback := mod_div_eq_iff (a := x.toInt.natAbs) (n := 2 ^ 128) hy (by omega)
    rw [if_neg hzero, decide_eq_true_eq, ne_eq, ← BitVec.toNat_inj, BitVec.toNat_udiv,
      BitVec.toNat_mul, toNat_magnitude, toNat_magnitude, hback, ← Int.natAbs_mul,
      Int.abs_eq_natAbs]
    omega

theorem toInt_mul_of_inInt128 (h : InInt128 (x.toInt * y.toInt)) :
    (x * y).toInt = x.toInt * y.toInt := by
  obtain ⟨h₁, h₂⟩ := h
  rw [BitVec.toInt_mul, Int.bmod_eq_of_le (by omega) (by omega)]

/-- **`mulOverflow` and `mul` are exact** but for the products between the
signed and the unsigned limit. -/
theorem mulOverflow_exact_iff (x y : BitVec 128) :
    (((mulOverflow x y).1 = true ↔ ¬ InInt128 (x.toInt * y.toInt)) ∧
        ((mulOverflow x y).1 = false → (mulOverflow x y).2.toInt = x.toInt * y.toInt) ∧
        (mul true true x y).toInt =
          if InInt128 (x.toInt * y.toInt) then x.toInt * y.toInt else 0) ↔
      InInt128 (x.toInt * y.toInt) ∨ 2 ^ 128 ≤ |x.toInt * y.toInt| := by
  have hflag := mulOverflow_fst (x := x) (y := y)
  have hmul : mul true true x y = if (mulOverflow x y).1 then 0 else x * y := by
    rw [← mulOverflow_snd]
    rfl
  rw [mulOverflow_snd, hmul]
  by_cases hin : InInt128 (x.toInt * y.toInt)
  · have hsmall : ¬ 2 ^ 128 ≤ |x.toInt * y.toInt| := by
      obtain ⟨h₁, h₂⟩ := hin
      rw [Int.abs_eq_natAbs]
      omega
    have hclear : (mulOverflow x y).1 = false := Bool.eq_false_iff.2 (mt hflag.1 hsmall)
    have hproduct := toInt_mul_of_inInt128 hin
    rw [hclear, if_pos hin, if_neg Bool.false_ne_true]
    exact iff_of_true ⟨iff_of_false Bool.false_ne_true (not_not_intro hin), fun _ => hproduct,
      hproduct⟩ (Or.inl hin)
  · by_cases hlarge : 2 ^ 128 ≤ |x.toInt * y.toInt|
    · rw [hflag.2 hlarge, if_neg hin, if_pos rfl]
      exact iff_of_true ⟨iff_of_true rfl hin, fun h => absurd h.symm Bool.false_ne_true, rfl⟩
        (Or.inr hlarge)
    · exact iff_of_false (fun h => hlarge (hflag.1 (h.1.2 hin))) (not_or.2 ⟨hin, hlarge⟩)

/-- Twice the largest power of two passes, and is negative. -/
theorem mulOverflow_gap :
    mulOverflow (BitVec.ofInt 128 (2 ^ 126)) 2 = (false, BitVec.ofInt 128 (-2 ^ 127)) ∧
      (mul true true (BitVec.ofInt 128 (2 ^ 126)) 2).toInt = -2 ^ 127 := by
  decide +kernel

end CKDecimalOp

end Decimal

end CppEtudes
