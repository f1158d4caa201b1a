import Mathlib.Algebra.Ring.Int.Defs
import Mathlib.Algebra.Ring.Nat
import Mathlib.Tactic.Common

/-!
# The sign as a mask

A signed word shifted right by its width less one is all ones where it is
negative, and zero otherwise. The exclusive or with such a mask, less the
mask, negates or does nothing; so it takes the absolute value of a word,
and puts a sign back.
-/

namespace CppEtudes

namespace SignMask

variable {w : ℕ}

/-- `x >> (w - 1)`. -/
def mask (x : BitVec w) : BitVec w := x.sshiftRight (w - 1)

/-- `(x ^ s) - s`. -/
def fold (x s : BitVec w) : BitVec w := (x ^^^ s) - s

/-- A mask of the sign. -/
def ofSign (negative : Bool) : BitVec w := if negative then BitVec.allOnes w else 0#w

theorem mask_eq (hw : 0 < w) (x : BitVec w) : mask x = ofSign x.msb := by
  refine BitVec.eq_of_getLsbD_eq fun i hi => ?_
  rw [mask, BitVec.getLsbD_sshiftRight, decide_eq_false (by omega), Bool.not_false, Bool.true_and]
  have hbit : (if w - 1 + i < w then x.getLsbD (w - 1 + i) else x.msb) = x.msb := by
    split_ifs with hzero
    · rw [show w - 1 + i = w - 1 by omega, BitVec.msb_eq_getLsbD_last]
    · rfl
  rw [hbit, ofSign]
  cases x.msb
  · rw [if_neg Bool.false_ne_true]
    exact BitVec.getLsbD_zero.symm
  · rw [if_pos rfl, BitVec.getLsbD_allOnes, decide_eq_true hi]

theorem ofSign_xor (a b : Bool) : (ofSign a ^^^ ofSign b : BitVec w) = ofSign (a ^^ b) := by
  cases a <;> cases b <;> simp [ofSign]

/-- **A mask negates or does nothing.** -/
theorem fold_ofSign (x : BitVec w) (negative : Bool) :
    fold x (ofSign negative) = if negative then -x else x := by
  cases negative
  · simp [fold, ofSign]
  · rw [fold, ofSign, if_pos rfl, if_pos rfl, BitVec.xor_allOnes, ← BitVec.neg_one_eq_allOnes,
      BitVec.sub_neg, BitVec.neg_eq_not_add]

/-- The absolute value, as an unsigned word. -/
theorem toNat_fold_mask (hw : 0 < w) (x : BitVec w) :
    (fold x (mask x)).toNat = x.toInt.natAbs := by
  have hx := x.isLt
  rw [mask_eq hw, fold_ofSign, BitVec.toInt_eq_msb_cond]
  cases hmsb : x.msb
  · rw [if_neg Bool.false_ne_true, if_neg Bool.false_ne_true, Int.natAbs_natCast]
  · have hpos : 0 < x.toNat := by
      have := BitVec.toNat_ge_of_msb_true hmsb
      have := Nat.two_pow_pos (w - 1)
      omega
    rw [if_pos rfl, if_pos rfl, BitVec.toNat_neg, Nat.mod_eq_of_lt (by omega)]
    omega

/-- A sign put back on a number that has room for it. -/
theorem toInt_fold (x : BitVec w) (negative : Bool)
    (h : 2 * x.toNat < 2 ^ w ∨ negative = true ∧ 2 * x.toNat = 2 ^ w) :
    (fold x (ofSign negative)).toInt = if negative then -(x.toNat : ℤ) else x.toNat := by
  have hneg : (-x).toNat = (2 ^ w - x.toNat) % 2 ^ w := BitVec.toNat_neg x
  rw [fold_ofSign, BitVec.toInt_eq_toNat_cond]
  cases negative
  · rw [if_neg Bool.false_ne_true, if_neg Bool.false_ne_true, if_pos (by simpa using h)]
  · rw [if_pos rfl, if_pos rfl, hneg]
    rcases Nat.eq_zero_or_pos x.toNat with hzero | hpos
    · rw [hzero, Nat.sub_zero, Nat.mod_self, if_pos (Nat.two_pow_pos w)]
      rfl
    · rw [Nat.mod_eq_of_lt (by omega), if_neg (by omega)]
      omega

end SignMask

end CppEtudes
