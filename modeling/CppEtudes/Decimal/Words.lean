import CppEtudes.Decimal.MulDiv
import CppEtudes.Decimal.Multi3

/-!
# Decimals as words against decimals by their signs

`add2` clamps as `add` does. `mul2` and `div2` round by an unsigned
comparison of a remainder that has the sign of the dividend: a negative
remainder is a large number, so that a negative quotient is rounded up,
whatever the remainder is. And `mul2` does not clamp.
-/

namespace CppEtudes

namespace Decimal

open Rounding

/-! ## Words -/

theorem toInt_ofDecimal (n : ℤ) : (ofDecimal n).toInt = wrap128 n := by
  rw [ofDecimal, BitVec.toInt_ofInt, Int.bmod_def, wrap128]
  omega

theorem toInt_ofDecimal_of_lt {n : ℤ} (h₁ : -2 ^ 127 ≤ n) (h₂ : n < 2 ^ 127) :
    (ofDecimal n).toInt = n := by
  rw [toInt_ofDecimal, wrap128_of_lt h₁ h₂]

theorem Value.toInt_ofDecimal (x : Value) : (ofDecimal x.val).toInt = x.val := by
  have hlt := x.natAbs_lt
  exact toInt_ofDecimal_of_lt (by omega) (by omega)

/-- **A comparison of unsigned numbers**: the negative ones are the large
ones. -/
theorem toNat_le_iff (a b : BitVec 128) : a.toNat ≤ b.toNat ↔
    a.toInt ≤ b.toInt ∧ (a.toInt < 0 → b.toInt < 0) ∨ 0 ≤ a.toInt ∧ b.toInt < 0 := by
  have ha := a.isLt
  have hb := b.isLt
  rw [BitVec.toInt_eq_toNat_cond, BitVec.toInt_eq_toNat_cond]
  split_ifs <;> omega

/-- What `mul2` and `div2` make of a division: the quotient, and one more
where the remainder reaches half the divisor as an unsigned number. -/
def roundedQuotient (a b : ℤ) : ℤ :=
  a.tdiv b + if a.tmod b ≠ 0 ∧ (b / 2 ≤ a.tmod b ∧ (b < 0 → a.tmod b < 0) ∨ 0 ≤ b ∧ a.tmod b < 0)
    then 1 else 0

theorem exists_roundedUp {a b half : BitVec 128} (hb : b.toInt ≠ 0)
    (hhalf : half.toInt = b.toInt / 2) (h : a.toInt.natAbs / b.toInt.natAbs < 2 ^ 126) :
    ∃ q r, divmodti3 a b = some (q, r) ∧
      (roundedUp q r half).toInt = roundedQuotient a.toInt b.toInt := by
  have hoverflow : ¬ (a.toInt = -2 ^ 127 ∧ b.toInt = -1) := by
    rintro ⟨ha, hb⟩
    rw [ha, hb] at h
    exact absurd h (by decide)
  obtain ⟨q, r, hdiv, hq, hr⟩ := exists_divmodti3 a b hb hoverflow
  have hnat : q.toInt.natAbs = a.toInt.natAbs / b.toInt.natAbs := by
    rw [hq]
    exact Int.natAbs_tdiv ..
  have hup : r ≠ 0 ∧ half ≤ r ↔ r.toInt ≠ 0 ∧
      (b.toInt / 2 ≤ r.toInt ∧ (b.toInt < 0 → r.toInt < 0) ∨ 0 ≤ b.toInt ∧ r.toInt < 0) := by
    have hzero : r = 0 ↔ r.toInt = 0 := BitVec.toInt_inj.symm
    rw [BitVec.le_def, toNat_le_iff, hhalf, ne_eq, hzero]
    omega
  refine ⟨q, r, hdiv, ?_⟩
  rw [roundedQuotient, ← hq, ← hr, roundedUp]
  by_cases hround : r ≠ 0 ∧ half ≤ r
  · rw [if_pos hround, if_pos (hup.1 hround), BitVec.toInt_add,
      show (1 : BitVec 128).toInt = 1 from rfl, Int.bmod_eq_of_le (by omega) (by omega)]
  · rw [if_neg hround, if_neg (mt hup.2 hround), Int.add_zero]

section Signs

variable {a b : ℤ}

theorem roundedQuotient_of_nonneg (ha : 0 ≤ a) (hb : 0 < b) :
    roundedQuotient a b = quotient a.natAbs b.natAbs := by
  obtain ⟨n, rfl⟩ : ∃ n : ℕ, a = n := ⟨a.natAbs, by omega⟩
  obtain ⟨m, rfl⟩ : ∃ m : ℕ, b = m := ⟨b.natAbs, by omega⟩
  rw [roundedQuotient, quotient, ← Int.ofNat_tdiv, ← Int.ofNat_tmod, Int.natAbs_natCast,
    Int.natAbs_natCast]
  split_ifs <;> omega

/-- A positive number by a negative one is never rounded. -/
theorem roundedQuotient_of_nonneg_of_neg (ha : 0 ≤ a) (hb : b < 0) :
    roundedQuotient a b = -((a.natAbs / b.natAbs : ℕ) : ℤ) := by
  obtain ⟨n, rfl⟩ : ∃ n : ℕ, a = n := ⟨a.natAbs, by omega⟩
  obtain ⟨m, rfl⟩ : ∃ m : ℕ, b = -m := ⟨b.natAbs, by omega⟩
  rw [roundedQuotient, Int.tdiv_neg, Int.tmod_neg, ← Int.ofNat_tdiv, ← Int.ofNat_tmod,
    if_neg (by omega), Int.add_zero, Int.natAbs_neg, Int.natAbs_natCast, Int.natAbs_natCast]

/-- A negative number by a positive one is rounded to the integer above. -/
theorem roundedQuotient_of_neg_of_pos (ha : a < 0) (hb : 0 < b) : roundedQuotient a b =
    if a.natAbs % b.natAbs = 0 then -((a.natAbs / b.natAbs : ℕ) : ℤ)
    else 1 - ((a.natAbs / b.natAbs : ℕ) : ℤ) := by
  obtain ⟨n, rfl⟩ : ∃ n : ℕ, a = -n := ⟨a.natAbs, by omega⟩
  obtain ⟨m, rfl⟩ : ∃ m : ℕ, b = m := ⟨b.natAbs, by omega⟩
  rw [roundedQuotient, Int.neg_tdiv, Int.neg_tmod, ← Int.ofNat_tdiv, ← Int.ofNat_tmod,
    Int.natAbs_neg, Int.natAbs_natCast, Int.natAbs_natCast]
  split_ifs <;> omega

/-- A negative number by a negative one is rounded up where the remainder
is *not* above the half. -/
theorem roundedQuotient_of_neg (ha : a < 0) (hb : b < 0) : roundedQuotient a b =
    ((a.natAbs / b.natAbs + if a.natAbs % b.natAbs ≠ 0 ∧ a.natAbs % b.natAbs ≤ (b.natAbs + 1) / 2
      then 1 else 0 : ℕ) : ℤ) := by
  obtain ⟨n, rfl⟩ : ∃ n : ℕ, a = -n := ⟨a.natAbs, by omega⟩
  obtain ⟨m, rfl⟩ : ∃ m : ℕ, b = -m := ⟨b.natAbs, by omega⟩
  rw [roundedQuotient, Int.neg_tdiv, Int.neg_tmod, Int.tdiv_neg, Int.tmod_neg, Int.neg_neg,
    ← Int.ofNat_tdiv, ← Int.ofNat_tmod, Int.natAbs_neg, Int.natAbs_neg, Int.natAbs_natCast,
    Int.natAbs_natCast]
  split_ifs <;> omega

end Signs

/-! ## Sums -/

theorem doAdd_eq {a b : ℤ} (ha : 0 ≤ a) (ha' : a < 10 ^ 27) (hb : 0 ≤ b) (hb' : b < 10 ^ 27) :
    (doAdd a b).2 = min maxDecimalValue (a + b) := by
  rw [doAdd, maxDecimalValue_eq, wrap128_of_lt (by omega) (by omega)]
  split_ifs with hle
  · rw [wrap128_of_lt (by omega) (by omega)]
    omega
  · omega

theorem doSub_eq {a b : ℤ} (ha : 0 ≤ a) (ha' : a < 10 ^ 27) (hb : 0 ≤ b) (hb' : b < 10 ^ 27) :
    (doSub a b).2 = a - b := wrap128_of_lt (by omega) (by omega)

/-- **`add` clamps.** -/
theorem add_eq_clamp (x y : Value) : add x.val y.val = clamp (x.val + y.val) := by
  have hx := x.natAbs_lt
  have hy := y.natAbs_lt
  have hnegx : wrap128 (-x.val) = -x.val := wrap128_of_lt (by omega) (by omega)
  have hnegy : wrap128 (-y.val) = -y.val := wrap128_of_lt (by omega) (by omega)
  rw [add, clamp, minDecimalValue, maxDecimalValue_eq, hnegx, hnegy]
  split_ifs with hx₀ hy₀ hxpos hypos hypos
  · omega
  · omega
  · rw [doAdd_eq (by omega) (by omega) (by omega) (by omega), maxDecimalValue_eq]
    omega
  · rw [doSub_eq (by omega) (by omega) (by omega) (by omega)]
    omega
  · rw [doSub_eq (by omega) (by omega) (by omega) (by omega)]
    omega
  · rw [doAdd_eq (by omega) (by omega) (by omega) (by omega), maxDecimalValue_eq,
      wrap128_of_lt (by omega) (by omega)]
    omega

/-- **`add2` clamps**, behind a mask of the sign. -/
theorem toInt_add2 (x y : Value) :
    (add2 (ofDecimal x.val) (ofDecimal y.val)).toInt = clamp (x.val + y.val) := by
  have hx := x.natAbs_lt
  have hy := y.natAbs_lt
  obtain ⟨res, hres⟩ : ∃ res, res = ofDecimal x.val + ofDecimal y.val := ⟨_, rfl⟩
  have hsum : res.toInt = x.val + y.val := by
    rw [hres, BitVec.toInt_add, x.toInt_ofDecimal, y.toInt_ofDecimal,
      Int.bmod_eq_of_le (by omega) (by omega)]
  have hpos : 0 < 128 := by omega
  have habs := SignMask.toNat_fold_mask hpos res
  have hmax : (ofDecimal maxDecimalValue).toInt = 10 ^ 27 - 1 := by decide
  have hslt : (ofDecimal maxDecimalValue).slt (SignMask.fold res (SignMask.mask res)) = true ↔
      10 ^ 27 - 1 < res.toInt.natAbs := by
    rw [BitVec.slt_iff_toInt_lt, hmax, BitVec.toInt_eq_toNat_of_lt (by omega), habs]
    omega
  obtain ⟨clamped, hclamped⟩ : ∃ clamped, clamped =
      if (ofDecimal maxDecimalValue).slt (SignMask.fold res (SignMask.mask res)) then
        ofDecimal maxDecimalValue else SignMask.fold res (SignMask.mask res) := ⟨_, rfl⟩
  have hmin : clamped.toNat = min (10 ^ 27 - 1) res.toInt.natAbs := by
    rw [hclamped]
    by_cases hlt : 10 ^ 27 - 1 < res.toInt.natAbs
    · rw [if_pos (hslt.2 hlt), Nat.min_eq_left (by omega)]
      decide
    · rw [if_neg (mt hslt.1 hlt), habs, Nat.min_eq_right (by omega)]
  rw [add2, doAdd2, ← hres, ← hclamped, SignMask.mask_eq hpos, BitVec.msb_eq_toInt,
    SignMask.toInt_fold clamped _ (Or.inl (by omega)), hmin, hsum, clamp, minDecimalValue,
    maxDecimalValue_eq]
  split_ifs with hneg
  · rw [decide_eq_true_eq] at hneg
    omega
  · rw [decide_eq_true_eq] at hneg
    omega

/-- **`add` and `add2`** are both the sum, clamped. -/
theorem add_add2_eq_clamp (x y : Value) :
    add x.val y.val = clamp (x.val + y.val) ∧
      (add2 (ofDecimal x.val) (ofDecimal y.val)).toInt = clamp (x.val + y.val) :=
  ⟨add_eq_clamp x y, toInt_add2 x y⟩

/-! ## Products -/

theorem mul2_eq (x y : ℤ) : (mul2 (ofDecimal x) (ofDecimal y)).map BitVec.toInt =
    some (roundedQuotient (wrap128 (x * y)) (10 ^ 9)) := by
  have hproduct : ofDecimal x * ofDecimal y = ofDecimal (x * y) := (BitVec.ofInt_mul ..).symm
  have hbillion : (ofDecimal oneBillion).toInt = 10 ^ 9 := by decide
  have hword := BitVec.toInt_lt (x := ofDecimal (x * y))
  have hword' := BitVec.le_toInt (ofDecimal (x * y))
  have hhalf : (ofDecimal oneBillion >>> 1).toInt = (ofDecimal oneBillion).toInt / 2 := by decide
  obtain ⟨q, r, hdiv, hround⟩ := exists_roundedUp (a := ofDecimal (x * y)) (by decide) hhalf
    (by rw [hbillion, show (10 ^ 9 : ℤ).natAbs = 10 ^ 9 from rfl]; omega)
  rw [toInt_ofDecimal, hbillion] at hround
  rw [mul2, multi3Wrapper_snd, hproduct, hdiv, ← hround]
  rfl

/-- A product in words: to the nearest if it is positive, upward if not. -/
theorem roundedQuotient_billion (w : ℤ) : roundedQuotient w (10 ^ 9) =
    if 0 ≤ w then (2 * w + 10 ^ 9) / (2 * 10 ^ 9)
    else -(-w / 10 ^ 9) + if w % 10 ^ 9 = 0 then 0 else 1 := by
  split_ifs with hw hmod
  · rw [roundedQuotient_of_nonneg hw (by decide), show (10 ^ 9 : ℤ).natAbs = 10 ^ 9 from rfl,
      (quotient_eq_roundDiv_iff (by decide)).2 (by omega), roundDiv_eq (by decide)]
    omega
  · rw [roundedQuotient_of_neg_of_pos (by omega) (by decide),
      show (10 ^ 9 : ℤ).natAbs = 10 ^ 9 from rfl, if_pos (by omega)]
    omega
  · rw [roundedQuotient_of_neg_of_pos (by omega) (by decide),
      show (10 ^ 9 : ℤ).natAbs = 10 ^ 9 from rfl, if_neg (by omega)]
    omega

theorem roundedQuotient_eq_max_iff (w : ℤ) : roundedQuotient w (10 ^ 9) = 10 ^ 27 - 1 ↔
    10 ^ 36 - 15 * 10 ^ 8 ≤ w ∧ w < 10 ^ 36 - 5 * 10 ^ 8 := by
  rw [roundedQuotient_billion]
  split_ifs <;> omega

theorem roundedQuotient_eq_min_iff (w : ℤ) : roundedQuotient w (10 ^ 9) = -(10 ^ 27 - 1) ↔
    w = -(10 ^ 36 - 10 ^ 9) ∨ -(10 ^ 36 + 10 ^ 9) < w ∧ w < -10 ^ 36 := by
  rw [roundedQuotient_billion]
  split_ifs <;> omega

/-- A product in the range is rounded as `mul` does unless it is negative
and something is left. -/
theorem roundedQuotient_eq_iff {p : ℤ} (h : |p| < 10 ^ 36) :
    roundedQuotient p (10 ^ 9) = (if p < 0 then -(product p.natAbs : ℤ) else product p.natAbs) ↔
      p < 0 → 10 ^ 9 ∣ p := by
  rw [Int.abs_eq_natAbs] at h
  have hproduct : product p.natAbs = (2 * p.natAbs + 10 ^ 9) / (2 * 10 ^ 9) := by
    rw [product, if_neg (by omega), roundDiv_eq (by decide)]
  rw [hproduct, roundedQuotient_billion]
  split_ifs <;> omega

/-- **`mul2` is `mul`** where the product is in the range, and nothing is
left of a negative one. Else the product would have to be clamped: `mul2`
gives the bound then only if it happens to round to it. -/
theorem mul2_eq_mul_iff (x y : Value) :
    (mul2 (ofDecimal x.val) (ofDecimal y.val)).map BitVec.toInt = some (mul x.val y.val) ↔
      |x.val * y.val| < 10 ^ 36 ∧ (x.val * y.val < 0 → 10 ^ 9 ∣ x.val * y.val) ∨
      10 ^ 36 ≤ x.val * y.val ∧ 10 ^ 36 - 15 * 10 ^ 8 ≤ wrap128 (x.val * y.val) ∧
        wrap128 (x.val * y.val) < 10 ^ 36 - 5 * 10 ^ 8 ∨
      x.val * y.val ≤ -10 ^ 36 ∧ (wrap128 (x.val * y.val) = -(10 ^ 36 - 10 ^ 9) ∨
        -(10 ^ 36 + 10 ^ 9) < wrap128 (x.val * y.val) ∧
          wrap128 (x.val * y.val) < -10 ^ 36) := by
  have hmul : mul x.val y.val = if x.val * y.val < 0 then -(product (x.val * y.val).natAbs : ℤ)
      else product (x.val * y.val).natAbs := by
    split_ifs with hneg
    · exact mul_of_neg hneg
    · exact mul_of_nonneg (by omega)
  rw [mul2_eq, Option.some.injEq, hmul]
  generalize x.val * y.val = p
  by_cases hin : |p| < 10 ^ 36
  · have habs := abs_lt.1 hin
    rw [wrap128_of_lt (by omega) (by omega), roundedQuotient_eq_iff hin]
    omega
  · rw [Int.abs_eq_natAbs] at hin
    have hclamp : product p.natAbs = 10 ^ 27 - 1 := if_pos (by omega)
    rw [hclamp, Int.abs_eq_natAbs]
    by_cases hneg : p < 0
    · have hmin := roundedQuotient_eq_min_iff (wrap128 p)
      rw [if_pos hneg]
      omega
    · have hmax := roundedQuotient_eq_max_iff (wrap128 p)
      rw [if_neg hneg]
      omega

/-- A billionth times minus a billionth is rounded to a billionth. -/
theorem mul2_minusOne : (mul2 (ofDecimal (-1)) (ofDecimal 1)).map BitVec.toInt = some 1 ∧
    mul (-1) 1 = 0 := by
  decide +kernel

/-! ## Quotients -/

section Quotients

variable {x y : Value}

theorem toInt_half (y : BitVec 128) : (y.sshiftRight 1).toInt = y.toInt / 2 := by
  rw [BitVec.toInt_sshiftRight, Int.shiftRight_eq_div_pow]
  rfl

theorem div2_eq (hx : x.val ≠ 0) (hy : y.val ≠ 0) :
    (div2 (ofDecimal x.val) (ofDecimal y.val)).map BitVec.toInt =
      some (roundedQuotient (x.val * 10 ^ 9) y.val) := by
  have hlt := x.natAbs_lt
  have hzero {z : Value} (hz : z.val ≠ 0) : ofDecimal z.val ≠ 0 := by
    intro h
    have hval := z.toInt_ofDecimal
    rw [h] at hval
    exact hz hval.symm
  have hdividend : ofDecimal x.val * ofDecimal oneBillion = ofDecimal (x.val * 10 ^ 9) :=
    (BitVec.ofInt_mul ..).symm
  have hval : (ofDecimal (x.val * 10 ^ 9)).toInt = x.val * 10 ^ 9 :=
    toInt_ofDecimal_of_lt (by omega) (by omega)
  obtain ⟨q, r, hdiv, hround⟩ := exists_roundedUp (a := ofDecimal (x.val * 10 ^ 9))
    (b := ofDecimal y.val) (by rwa [y.toInt_ofDecimal]) (toInt_half _)
    ((Nat.div_le_self ..).trans_lt (by rw [hval]; omega))
  rw [hval, y.toInt_ofDecimal] at hround
  rw [div2, if_neg (not_or.2 ⟨hzero hx, hzero hy⟩), hdividend]
  dsimp only
  rw [hdiv, ← hround]
  rfl

end Quotients

/-- **`div2` is `div`** for positive numbers and where nothing is left. A
positive number by a negative one is never rounded, and a negative number
by a negative one is rounded by the wrong side of the half. -/
theorem div2_eq_div_iff (x y : Value) :
    (div2 (ofDecimal x.val) (ofDecimal y.val)).map BitVec.toInt = some (div x.val y.val) ↔
      y.val = 0 ∨ |x.val| * 10 ^ 9 % |y.val| = 0 ∨ 0 < x.val ∧ 0 < y.val ∨
      0 < x.val ∧ y.val < 0 ∧ |x.val| * 10 ^ 9 % |y.val| < |y.val| / 2 ∨
      x.val < 0 ∧ y.val < 0 ∧ |y.val| / 2 ≤ |x.val| * 10 ^ 9 % |y.val| ∧
        |x.val| * 10 ^ 9 % |y.val| ≤ (|y.val| + 1) / 2 := by
  by_cases hzero : x.val = 0 ∨ y.val = 0
  · have hword : ofDecimal x.val = 0 ∨ ofDecimal y.val = 0 :=
      hzero.imp (fun h => by rw [h]; rfl) (fun h => by rw [h]; rfl)
    rw [div2, if_pos hword, div, signed_of_zero hzero]
    refine iff_of_true rfl ?_
    rcases hzero with hx | hy
    · rw [hx]
      exact Or.inr (Or.inl (Int.zero_emod _))
    · exact Or.inl hy
  obtain ⟨hx, hy⟩ := not_or.1 hzero
  have hm := Int.natAbs_pos.2 hy
  have hmod : |x.val| * 10 ^ 9 % |y.val| =
      ((x.val.natAbs * 10 ^ 9 % y.val.natAbs : ℕ) : ℤ) := by
    rw [Int.abs_eq_natAbs, Int.abs_eq_natAbs]
    push_cast
    rfl
  have habs : (x.val * 10 ^ 9).natAbs = x.val.natAbs * 10 ^ 9 := Int.natAbs_mul ..
  rw [div2_eq hx hy, Option.some.injEq, hmod, Int.abs_eq_natAbs]
  rcases Int.lt_or_gt_of_ne hx with hxneg | hxpos <;>
    rcases Int.lt_or_gt_of_ne hy with hyneg | hypos
  · rw [roundedQuotient_of_neg (by omega) hyneg, habs,
      div_of_nonneg hy (Int.mul_nonneg_of_nonpos_of_nonpos hxneg.le hyneg.le), quotient]
    split_ifs <;> omega
  · rw [roundedQuotient_of_neg_of_pos (by omega) hypos, habs,
      div_of_neg (Int.mul_neg_of_neg_of_pos hxneg hypos), quotient]
    split_ifs <;> omega
  · rw [roundedQuotient_of_nonneg_of_neg (by omega) hyneg, habs,
      div_of_neg (Int.mul_neg_of_pos_of_neg hxpos hyneg), quotient]
    split_ifs <;> omega
  · rw [roundedQuotient_of_nonneg (by omega) hypos, habs,
      div_of_nonneg hy (Int.mul_nonneg hxpos.le hypos.le)]
    exact iff_of_true rfl (Or.inr (Or.inr (Or.inl ⟨hxpos, hypos⟩)))

/-- Minus a third is rounded up. -/
theorem div2_minusThird :
    (div2 (ofDecimal (-1)) (ofDecimal 3)).map BitVec.toInt = some (-333333332) ∧
      div (-1) 3 = -333333334 := by
  decide +kernel

end Decimal

end CppEtudes
