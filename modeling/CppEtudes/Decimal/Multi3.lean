import CppEtudes.Common.Halves
import CppEtudes.Decimal.DivMod
import CppEtudes.Decimal.Model.Words
import CppEtudes.Decimal.Value

/-!
# The product of two words

`multi3` adds the partial products of the halves. Its flags stay clear
exactly where the product has no more than 127 bits: one high half is
zero, and what the other partial products add up to fits in 63 bits.
`mulOverflow` decides the same by a division.
-/

namespace CppEtudes

namespace Decimal

section Halves

variable {x y : BitVec 64}

theorem toNat_asmMul (x y : BitVec 64) : (asmMul x y).2.toNat = x.toNat * y.toNat := by
  have hlt : x.toNat * y.toNat < 2 ^ 64 * 2 ^ 64 := Nat.mul_lt_mul'' x.isLt y.isLt
  rw [asmMul, BitVec.toNat_mul, BitVec.toNat_setWidth_of_le (by omega),
    BitVec.toNat_setWidth_of_le (by omega), Nat.mod_eq_of_lt (by omega)]

theorem asmMul_flag : (asmMul x y).1 = true ↔ 2 ^ 64 ≤ x.toNat * y.toNat := by
  have hhigh : (asmMul x y).1 = true ↔ high (asmMul x y).2 ≠ 0 := decide_eq_true_iff
  rw [hhigh, ← toNat_asmMul, ne_eq, ← BitVec.toNat_inj, toNat_high]
  change ¬ _ = 0 ↔ _
  omega

theorem toNat_asmAdd (x y : BitVec 64) :
    (asmAdd x y).2.toNat = (x.toNat + y.toNat) % 2 ^ 64 := BitVec.toNat_add x y

/-- A carry or a sign: the sum needs more than 63 bits. -/
theorem asmAdd_flag : (asmAdd x y).1 = true ↔ 2 ^ 63 ≤ x.toNat + y.toNat := by
  rw [asmAdd, Bool.or_eq_true, BitVec.msb_eq_decide, BitVec.toNat_add, BitVec.uaddOverflow,
    decide_eq_true_iff, decide_eq_true_iff]
  omega

end Halves

section Wrappers

variable {x y : BitVec 128}

theorem or_halves_eq_zero_iff : low x ||| high x = 0 ↔ x = 0 := by
  refine ⟨fun h => ?_, ?_⟩
  · obtain ⟨hlow, hhigh⟩ := BitVec.or_eq_zero_iff.1 h
    refine BitVec.eq_of_toNat_eq ?_
    rw [toNat_eq_halves, hlow, hhigh]
    rfl
  · rintro rfl
    decide

/-- **The product of two wrappers.** -/
theorem multi3Wrapper_snd (x y : BitVec 128) : (multi3Wrapper x y).2 = x * y := by
  rw [multi3Wrapper]
  split_ifs with hzero
  · rw [or_halves_eq_zero_iff.1 hzero.1]
    exact BitVec.zero_mul.symm
  · refine BitVec.eq_of_toNat_eq ?_
    rw [toNat_append, toNat_asmAdd, toNat_asmAdd, toNat_high, toNat_low, toNat_low, toNat_low,
      toNat_asmMul, toNat_asmMul, toNat_asmMul, BitVec.toNat_mul, toNat_eq_halves x,
      toNat_eq_halves y]
    have hmod := Halves.mul_mod (B := 2 ^ 64) (high x).toNat (low x).toNat (high y).toNat
      (low y).toNat (by omega)
    rw [show 2 ^ 128 = 2 ^ 64 * 2 ^ 64 from rfl, hmod, Halves.cross]
    omega

/-- **The flags of two wrappers** stay clear where the product has no more
than 127 bits. -/
theorem multi3Wrapper_fst : (multi3Wrapper x y).1 = false ↔ x.toNat * y.toNat < 2 ^ 127 := by
  rw [multi3Wrapper]
  split_ifs with hzero
  · rw [or_halves_eq_zero_iff.1 hzero.1]
    simp
  · have hlt := Halves.mul_lt_iff (B := 2 ^ 64) (H := 2 ^ 63) (high x).toNat
      (low x).toNat (high y).toNat (low y).toNat (by omega) (by omega)
    rw [← toNat_eq_halves, ← toNat_eq_halves, Halves.cross] at hlt
    have hhigh (z : BitVec 128) : high z = 0 ↔ (high z).toNat = 0 := BitVec.toNat_inj.symm
    have hres := toNat_high (asmMul (low x) (low y)).2
    have ht₀ := toNat_low (asmMul (low x) (high y)).2
    have ht₁ := toNat_low (asmMul (low y) (high x)).2
    rw [toNat_asmMul] at hres ht₀ ht₁
    rw [show 2 ^ 127 = 2 ^ 63 * 2 ^ 64 from rfl, hlt, ← Bool.not_eq_true]
    simp only [Bool.or_eq_true, decide_eq_true_eq, asmMul_flag, asmAdd_flag, toNat_asmAdd, hres,
      ht₀, ht₁, ne_eq, hhigh]
    omega

end Wrappers

/-! ## Signed numbers -/

section Signed

variable {x y : BitVec 128}

theorem multi3_snd (x y : BitVec 128) : (multi3 x y).2 = x * y := by
  have hpos : 0 < 128 := by omega
  have hproduct : (multi3 x y).2 = SignMask.fold
      (multi3Wrapper (SignMask.fold x (SignMask.mask x)) (SignMask.fold y (SignMask.mask y))).2
      (SignMask.mask x ^^^ SignMask.mask y) := rfl
  rw [hproduct, multi3Wrapper_snd, SignMask.mask_eq hpos, SignMask.mask_eq hpos,
    SignMask.ofSign_xor, SignMask.fold_ofSign, SignMask.fold_ofSign, SignMask.fold_ofSign]
  cases x.msb <;> cases y.msb <;> simp

theorem multi3_fst : (multi3 x y).1 = false ↔ |x.toInt * y.toInt| < 2 ^ 127 := by
  have hpos : 0 < 128 := by omega
  have hflag : (multi3 x y).1 =
      (multi3Wrapper (SignMask.fold x (SignMask.mask x)) (SignMask.fold y (SignMask.mask y))).1 := rfl
  rw [hflag, multi3Wrapper_fst, SignMask.toNat_fold_mask hpos, SignMask.toNat_fold_mask hpos,
    ← Int.natAbs_mul, Int.abs_eq_natAbs]
  omega

/-- **`multi3`** stores the product of 128 bits, and returns 0 exactly
where the product has no more than 127 of them. -/
theorem multi3_eq (x y : BitVec 128) :
    (multi3 x y).2 = BitVec.ofInt 128 (x.toInt * y.toInt) ∧
      ((multi3 x y).1 = false ↔ |x.toInt * y.toInt| < 2 ^ 127) := by
  refine ⟨?_, multi3_fst⟩
  rw [multi3_snd, BitVec.ofInt_mul, BitVec.ofInt_toInt, BitVec.ofInt_toInt]

/-- The product that is stored, where it fits. -/
theorem toInt_mul_of_lt (h : |x.toInt * y.toInt| < 2 ^ 127) :
    (x * y).toInt = x.toInt * y.toInt := by
  have hlt := abs_lt.1 h
  rw [BitVec.toInt_mul, Int.bmod_eq_of_le (by omega) (by omega)]

end Signed

/-! ## `mulOverflow` -/

section MulOverflow

variable {x y : ℤ}

theorem mulOverflow_of_ne_zero (hx₀ : x ≠ 0) (hy₀ : y ≠ 0) (hx : |x| < 2 ^ 127) (hy : |y| < 2 ^ 127)
    (result : ℤ) :
    ((mulOverflow x y result).1 = false ↔ |x * y| < 2 ^ 127) ∧
      (|x * y| < 2 ^ 127 → (mulOverflow x y result).2 = x * y) := by
  rw [Int.abs_eq_natAbs] at hx hy
  have hzero : ¬ (x = 0 ∨ y = 0) := not_or.2 ⟨hx₀, hy₀⟩
  have hguard := overflows_iff (Int.natAbs_pos.2 hx₀) (Int.natAbs_pos.2 hy₀) (by omega) (by omega)
  rw [← Int.natAbs_mul] at hguard
  have habs : |x * y| = (x * y).natAbs := Int.abs_eq_natAbs _
  rw [mulOverflow, if_neg hzero, unsignedMulOverflow, abs_eq_natAbs (by omega),
    abs_eq_natAbs (by omega), habs]
  refine ⟨?_, fun hlt => ?_⟩
  · rw [decide_eq_false_iff_not, hguard]
    omega
  have hproduct : wrap128 (x.natAbs * y.natAbs : ℤ) = (x * y).natAbs := by
    rw [← Int.natCast_mul, ← Int.natAbs_mul]
    exact wrap128_of_lt (by omega) (by omega)
  rw [hproduct]
  dsimp only
  by_cases hpos : 0 < x * y
  · rw [if_pos (isPositive_iff.2 hpos)]
    omega
  · rw [if_neg (mt isPositive_iff.1 hpos), wrap128_of_lt (by omega) (by omega)]
    omega

end MulOverflow

/-- **`mulOverflow` agrees with `multi3`**, and leaves its product, except
that a product by zero leaves what was there. -/
theorem mulOverflow_eq_multi3_iff (x y result : BitVec 128) (hx : |x.toInt| < 2 ^ 127)
    (hy : |y.toInt| < 2 ^ 127) :
    ((mulOverflow x.toInt y.toInt result.toInt).1 = (multi3 x y).1 ∧
        ((multi3 x y).1 = false →
          (mulOverflow x.toInt y.toInt result.toInt).2 = (multi3 x y).2.toInt)) ↔
      x.toInt ≠ 0 ∧ y.toInt ≠ 0 ∨ result.toInt = 0 := by
  by_cases hzero : x.toInt = 0 ∨ y.toInt = 0
  · have hmul : x.toInt * y.toInt = 0 := mul_eq_zero.2 hzero
    have hlt : |x.toInt * y.toInt| < 2 ^ 127 := by
      rw [hmul]
      decide
    have hflag : (multi3 x y).1 = false := multi3_fst.2 hlt
    rw [mulOverflow, if_pos hzero, hflag, multi3_snd, toInt_mul_of_lt hlt, hmul,
      forall_prop_of_true rfl, and_iff_right rfl, or_iff_right (by tauto)]
  · obtain ⟨hx₀, hy₀⟩ := not_or.1 hzero
    obtain ⟨hfst, hsnd⟩ := mulOverflow_of_ne_zero hx₀ hy₀ hx hy result.toInt
    refine iff_of_true ⟨?_, fun hflag => ?_⟩ (Or.inl ⟨hx₀, hy₀⟩)
    · have hiff := hfst.trans multi3_fst.symm
      rwa [← Bool.not_eq_true, ← Bool.not_eq_true, not_iff_not, ← Bool.eq_iff_iff] at hiff
    · have hlt := multi3_fst.1 hflag
      rw [hsnd hlt, multi3_snd, toInt_mul_of_lt hlt]

/-- The witness: six times seven. -/
theorem mulOverflow_eq_multi3_iff_six :
    (mulOverflow (6 : BitVec 128).toInt (7 : BitVec 128).toInt (5 : BitVec 128).toInt).1 =
        (multi3 6 7).1 ∧
      ((multi3 6 7).1 = false →
        (mulOverflow (6 : BitVec 128).toInt (7 : BitVec 128).toInt (5 : BitVec 128).toInt).2 =
          (multi3 6 7).2.toInt) :=
  (mulOverflow_eq_multi3_iff 6 7 5 (by decide) (by decide)).2 (Or.inl (by decide))

/-- Zero times one leaves the one that was there. -/
theorem mulOverflow_zero : mulOverflow 0 1 1 = (false, 1) ∧ multi3 0 1 = (false, 0) := by decide

end Decimal

end CppEtudes
