import CppEtudes.Common.ShiftSubtract
import CppEtudes.Decimal.Model.DivMod

/-!
# The quotient and the remainder

`udivmodti4` divides unsigned words: by `divq`, whose quotient always
fits, where the divisor has 64 bits, and else by shifting and
subtracting (`shiftSubtract_eq`), with a comparison that the sign of a
difference decides. `divmodti3` divides the absolute values and puts the
signs back.
-/

namespace CppEtudes

namespace Decimal

variable {a b : BitVec 128}

/-! ## Halves -/

theorem toNat_high (x : BitVec 128) : (high x).toNat = x.toNat / 2 ^ 64 := by
  have hx := x.isLt
  rw [high, BitVec.extractLsb'_toNat, Nat.shiftRight_eq_div_pow]
  omega

theorem toNat_low (x : BitVec 128) : (low x).toNat = x.toNat % 2 ^ 64 := by
  rw [low, BitVec.extractLsb'_toNat, Nat.shiftRight_zero]

theorem toNat_append (x y : BitVec 64) : (x ++ y).toNat = x.toNat * 2 ^ 64 + y.toNat := by
  rw [BitVec.toNat_append, ← Nat.shiftLeft_add_eq_or_of_lt y.isLt, Nat.shiftLeft_eq]

theorem toNat_zero_append (y : BitVec 64) : (0#64 ++ y).toNat = y.toNat := by
  rw [toNat_append, BitVec.toNat_ofNat, Nat.zero_mod, Nat.zero_mul, Nat.zero_add]

/-! ## `divq` -/

/-- **The quotient fits** where the high half is smaller than the
divisor. -/
theorem udiv128by64to64_eq {u₁ v : BitVec 64} (u₀ : BitVec 64) (h : u₁.toNat < v.toNat) :
    ∃ q r, udiv128by64to64 u₁ u₀ v = some (q, r) ∧
      q.toNat = (u₁.toNat * 2 ^ 64 + u₀.toNat) / v.toNat ∧
      r.toNat = (u₁.toNat * 2 ^ 64 + u₀.toNat) % v.toNat := by
  have hfits : (u₁.toNat * 2 ^ 64 + u₀.toNat) / v.toNat < 2 ^ 64 := by
    have hle : (u₁.toNat + 1) * 2 ^ 64 ≤ v.toNat * 2 ^ 64 := Nat.mul_le_mul_right _ h
    have hlow := u₀.isLt
    exact Nat.div_lt_of_lt_mul (by omega)
  have hrem : (u₁.toNat * 2 ^ 64 + u₀.toNat) % v.toNat < 2 ^ 64 :=
    Nat.lt_trans (Nat.mod_lt _ (by omega)) v.isLt
  refine ⟨_, _, if_pos ⟨by omega, hfits⟩, ?_, ?_⟩
  · rw [BitVec.toNat_ofNat, Nat.mod_eq_of_lt hfits]
  · rw [BitVec.toNat_ofNat, Nat.mod_eq_of_lt hrem]

/-! ## Shifting and subtracting -/

/-- **The sign of the difference** says which is larger, as long as they
are not too far apart. -/
theorem mask_difference {n d : BitVec 128} (hn : n.toNat < 2 * d.toNat)
    (hd : d.toNat ≤ n.toNat + 2 ^ 127) :
    SignMask.mask (d - n - 1) = SignMask.ofSign (decide (d.toNat ≤ n.toNat)) := by
  have hn' := n.isLt
  have hd' := d.isLt
  rw [SignMask.mask_eq (by omega), BitVec.msb_eq_decide, BitVec.toNat_sub, BitVec.toNat_sub]
  congr 1
  rw [decide_eq_decide, show (1 : BitVec 128).toNat = 1 from rfl]
  omega

theorem toNat_appendBit (q : BitVec 64) (bit : Bool) (h : 2 * q.toNat + 1 < 2 ^ 64) :
    ((q <<< 1) ||| ((SignMask.ofSign bit : BitVec 128) &&& 1).setWidth 64).toNat =
      2 * q.toNat + bit.toNat := by
  have hbit : (((SignMask.ofSign bit : BitVec 128) &&& 1).setWidth 64).toNat = bit.toNat := by
    cases bit <;> decide
  rw [BitVec.toNat_or, hbit, BitVec.toNat_shiftLeft, Nat.shiftLeft_eq, Nat.mod_eq_of_lt (by omega),
    ← Nat.shiftLeft_eq, ← Nat.shiftLeft_add_eq_or_of_lt (Bool.toNat_lt bit), Nat.shiftLeft_eq]
  omega

/-- **The loop on words is the loop on numbers.** -/
theorem shiftSubtract_eq {m : ℕ} (rounds : ℕ) : ∀ (q : BitVec 64) (n d : BitVec 128),
    d.toNat = m * 2 ^ rounds / 2 → n.toNat < m * 2 ^ rounds → d.toNat ≤ n.toNat + 2 ^ 127 →
    (q.toNat + 1) * 2 ^ rounds ≤ 2 ^ 64 →
    ((shiftSubtract rounds q n d).1.toNat, (shiftSubtract rounds q n d).2.toNat) =
      ShiftSubtract.loop rounds q.toNat n.toNat d.toNat := by
  induction rounds with
  | zero => intro q n d _ _ _ _; rfl
  | succ rounds ih =>
    intro q n d hd hn hclose hq
    have hdivisor : d.toNat = m * 2 ^ rounds := by
      rw [hd, Nat.pow_succ, ← Nat.mul_assoc, Nat.mul_div_cancel _ Nat.two_pos]
    have hhalf : (d >>> 1).toNat = d.toNat / 2 := by
      rw [BitVec.toNat_ushiftRight, Nat.shiftRight_eq_div_pow, Nat.pow_one]
    have hpos : 0 < 2 ^ rounds := Nat.two_pow_pos rounds
    rw [Nat.pow_succ, ← Nat.mul_assoc] at hn hq
    have hbit : 2 * q.toNat + 1 < 2 ^ 64 := by
      have hle : (q.toNat + 1) * 1 ≤ (q.toNat + 1) * 2 ^ rounds := Nat.mul_le_mul_left _ hpos
      omega
    have hnext : ∀ bit : Bool, (2 * q.toNat + bit.toNat + 1) * 2 ^ rounds ≤ 2 ^ 64 := by
      intro bit
      have hle : (2 * q.toNat + bit.toNat + 1) * 2 ^ rounds ≤ 2 * (q.toNat + 1) * 2 ^ rounds :=
        Nat.mul_le_mul_right _ (by have := Bool.toNat_le bit; omega)
      rw [Nat.mul_assoc] at hle
      omega
    have hd' := d.isLt
    rw [shiftSubtract, ShiftSubtract.loop, mask_difference (by omega) hclose, ← hhalf]
    by_cases hle : d.toNat ≤ n.toNat
    · have hquotient := toNat_appendBit q true hbit
      have hdividend : (n - (d &&& SignMask.ofSign true)).toNat = n.toNat - d.toNat := by
        rw [SignMask.ofSign, if_pos rfl, BitVec.and_allOnes, BitVec.toNat_sub_of_le hle]
      rw [decide_eq_true hle, if_pos hle, ih _ _ _ (by omega) (by omega) (by omega)
        (by rw [hquotient]; exact hnext true), hquotient, hdividend]
      rfl
    · have hquotient := toNat_appendBit q false hbit
      have hdividend : n - (d &&& SignMask.ofSign false) = n := by
        rw [SignMask.ofSign, if_neg Bool.false_ne_true, BitVec.and_zero, BitVec.sub_zero]
      rw [decide_eq_false hle, if_neg hle, hdividend, ih _ _ _ (by omega) (by omega) (by omega)
        (by rw [hquotient]; exact hnext false), hquotient]
      rfl

/-! ## Unsigned division -/

theorem toNat_eq_halves (x : BitVec 128) :
    x.toNat = (high x).toNat * 2 ^ 64 + (low x).toNat := by
  rw [toNat_high, toNat_low]
  omega

/-- A divisor of 64 bits. -/
theorem udivmodti4_of_high_eq_zero (hb : b.toNat ≠ 0) (hle : ¬ a < b) (hhigh : high b = 0) :
    ∃ q r, udivmodti4 a b = some (q, r) ∧ q.toNat = a.toNat / b.toNat ∧
      r.toNat = a.toNat % b.toNat := by
  have hlow : (low b).toNat = b.toNat := by
    have := toNat_eq_halves b
    rw [hhigh] at this
    simpa using this.symm
  have ha := toNat_eq_halves a
  rw [udivmodti4, if_neg hle, if_pos hhigh]
  by_cases hlt : high a < low b
  · obtain ⟨q, r, hdiv, hq, hr⟩ := udiv128by64to64_eq (low a) (BitVec.lt_def.1 hlt)
    rw [if_pos hlt, hdiv]
    refine ⟨_, _, rfl, ?_, ?_⟩
    · rw [toNat_zero_append, hq, ← ha, hlow]
    · rw [toNat_zero_append, hr, ← ha, hlow]
  · have hrem : (high a % low b).toNat < (low b).toNat := by
      rw [BitVec.toNat_umod]
      exact Nat.mod_lt _ (by omega)
    obtain ⟨q, r, hdiv, hq, hr⟩ := udiv128by64to64_eq (low a) hrem
    have hzero : low b ≠ 0 := fun h => hb (by rw [← hlow, h]; rfl)
    -- the high half is divided first
    have hsplit : a.toNat = (high a % low b).toNat * 2 ^ 64 + (low a).toNat +
        (low b).toNat * ((high a / low b).toNat * 2 ^ 64) := by
      have := Nat.div_add_mod (high a).toNat (low b).toNat
      rw [ha, BitVec.toNat_umod, BitVec.toNat_udiv]
      conv_lhs => rw [← this]
      ring
    rw [if_neg hlt, if_neg hzero, hdiv]
    refine ⟨_, _, rfl, ?_, ?_⟩
    · rw [toNat_append, hq, hsplit, ← hlow, Nat.add_mul_div_left _ _ (by omega), Nat.add_comm]
    · rw [toNat_zero_append, hr, hsplit, ← hlow, Nat.add_mul_mod_self_left]

/-- A divisor of more bits. -/
theorem udivmodti4_of_high_ne_zero (hle : ¬ a < b) (hhigh : high b ≠ 0) :
    ∃ q r, udivmodti4 a b = some (q, r) ∧ q.toNat = a.toNat / b.toNat ∧
      r.toNat = a.toNat % b.toNat := by
  have hhigh' : (high b).toNat ≠ 0 := fun h => hhigh (BitVec.eq_of_toNat_eq h)
  have hab : b.toNat ≤ a.toNat := Nat.not_lt.1 (hle ∘ BitVec.lt_def.2)
  have ha := toNat_eq_halves a
  have hb := toNat_eq_halves b
  have hahigh : (high b).toNat ≤ (high a).toNat := by
    rw [toNat_high, toNat_high]
    exact Nat.div_le_div_right hab
  obtain ⟨lb, hlb⟩ : ∃ lb, lb = Nat.log2 (high b).toNat := ⟨_, rfl⟩
  obtain ⟨la, hla⟩ : ∃ la, la = Nat.log2 (high a).toNat := ⟨_, rfl⟩
  have hb₁ : 2 ^ lb ≤ (high b).toNat := hlb ▸ Nat.log2_self_le hhigh'
  have hb₂ : (high b).toNat < 2 ^ (lb + 1) := hlb ▸ Nat.lt_log2_self
  have ha₁ : 2 ^ la ≤ (high a).toNat := hla ▸ Nat.log2_self_le (by omega)
  have ha₂ : (high a).toNat < 2 ^ (la + 1) := hla ▸ Nat.lt_log2_self
  have hword : la < 64 :=
    (Nat.pow_lt_pow_iff_right (a := 2) (by omega)).1 (Nat.lt_of_le_of_lt ha₁ (high a).isLt)
  have hlog : lb < la + 1 :=
    (Nat.pow_lt_pow_iff_right (a := 2) (by omega)).1 (by omega)
  -- the divisor is shifted to the highest bit of the dividend
  obtain ⟨shift, rfl⟩ : ∃ shift, la = lb + shift := ⟨la - lb, by omega⟩
  have hpow : 2 ^ (lb + shift) ≤ 2 ^ 63 := Nat.pow_le_pow_right (by omega) (by omega)
  rw [Nat.pow_succ, Nat.pow_add] at ha₂
  rw [Nat.pow_add] at ha₁ hpow
  rw [Nat.pow_succ] at hb₂
  have hlow := (low a).isLt
  have hlow' := (low b).isLt
  have h₁ : 2 ^ lb * 2 ^ 64 * 2 ^ shift ≤ b.toNat * 2 ^ shift :=
    Nat.mul_le_mul_right _ (by omega)
  have h₂ : (b.toNat + 1) * 2 ^ shift ≤ 2 ^ lb * 2 * 2 ^ 64 * 2 ^ shift :=
    Nat.mul_le_mul_right _ (by omega)
  have hS : 1 * 2 ^ shift ≤ 2 ^ lb * 2 ^ shift :=
    Nat.mul_le_mul_right _ (Nat.two_pow_pos lb)
  have hS' : 0 < 2 ^ shift := Nat.two_pow_pos shift
  rw [Nat.mul_right_comm] at h₁
  rw [Nat.mul_right_comm _ (2 ^ 64), Nat.mul_right_comm _ 2, Nat.succ_mul] at h₂
  have hdivisor : (b <<< shift).toNat = b.toNat * 2 ^ shift := by
    rw [BitVec.toNat_shiftLeft, Nat.shiftLeft_eq, Nat.mod_eq_of_lt (by omega)]
  have hdouble : b.toNat * 2 ^ (shift + 1) = b.toNat * 2 ^ shift * 2 := by
    rw [Nat.pow_succ, Nat.mul_assoc]
  have hloop := shiftSubtract_eq (m := b.toNat) (shift + 1) 0 a (b <<< shift) (by omega) (by omega)
    (by omega) (by rw [Nat.pow_succ, show (0 : BitVec 64).toNat = 0 from rfl]; omega)
  rw [hdivisor, ← Nat.mul_div_cancel (b.toNat * 2 ^ shift) Nat.two_pos, ← hdouble,
    ShiftSubtract.loop_eq (by omega) (shift + 1) (by omega), Prod.mk.injEq,
    show (0 : BitVec 64).toNat = 0 from rfl, Nat.zero_mul, Nat.zero_add] at hloop
  have hahigh' : high a ≠ 0 := fun h => by
    rw [h] at hahigh
    exact hhigh' (Nat.le_zero.1 hahigh)
  rw [udivmodti4, if_neg hle, if_neg hhigh, clzll, if_neg hhigh, clzll, if_neg hahigh',
    builtinClzll, builtinClzll, ← hlb, ← hla]
  dsimp only [Option.bind_eq_bind, Option.bind_some]
  rw [if_pos (by omega), show 63 - lb - (63 - (lb + shift)) = shift by omega]
  exact ⟨_, _, rfl, by rw [toNat_zero_append, hloop.1], hloop.2⟩

theorem udivmodti4_eq (hb : b.toNat ≠ 0) :
    ∃ q r, udivmodti4 a b = some (q, r) ∧ q.toNat = a.toNat / b.toNat ∧
      r.toNat = a.toNat % b.toNat := by
  by_cases hlt : a < b
  · have hlt' : a.toNat < b.toNat := BitVec.lt_def.1 hlt
    refine ⟨0, a, if_pos hlt, ?_, ?_⟩
    · rw [Nat.div_eq_of_lt hlt']
      rfl
    · rw [Nat.mod_eq_of_lt hlt']
  · by_cases hhigh : high b = 0
    · exact udivmodti4_of_high_eq_zero hb hlt hhigh
    · exact udivmodti4_of_high_ne_zero hlt hhigh

/-! ## Signed division -/

/-- Division that truncates, by absolute values and signs. -/
theorem tdiv_eq_natAbs (x y : ℤ) : x.tdiv y =
    if decide (y < 0) ^^ decide (x < 0) then -((x.natAbs / y.natAbs : ℕ) : ℤ)
    else (x.natAbs / y.natAbs : ℕ) := by
  rw [Int.ofNat_tdiv]
  by_cases hx : x < 0
  · rw [decide_eq_true hx, Int.ofNat_natAbs_of_nonpos (by omega), Int.neg_tdiv, Int.neg_neg]
    by_cases hy : y < 0
    · rw [decide_eq_true hy, if_neg (by decide), Int.ofNat_natAbs_of_nonpos (by omega),
        Int.tdiv_neg, Int.neg_neg]
    · rw [decide_eq_false hy, if_pos (by decide), Int.natAbs_of_nonneg (by omega)]
  · rw [decide_eq_false hx, Int.natAbs_of_nonneg (by omega : 0 ≤ x)]
    by_cases hy : y < 0
    · rw [decide_eq_true hy, if_pos (by decide), Int.ofNat_natAbs_of_nonpos (by omega),
        Int.tdiv_neg, Int.neg_neg]
    · rw [decide_eq_false hy, if_neg (by decide), Int.natAbs_of_nonneg (by omega)]

/-- The remainder has the sign of the dividend. -/
theorem tmod_eq_natAbs (x y : ℤ) : x.tmod y =
    if decide (x < 0) then -((x.natAbs % y.natAbs : ℕ) : ℤ) else (x.natAbs % y.natAbs : ℕ) := by
  have hy : x.tmod y.natAbs = x.tmod y := by
    rcases Int.natAbs_eq y with h | h
    · rw [← h]
    · rw [h, Int.tmod_neg, Int.natAbs_neg, Int.natAbs_natCast]
  rw [Int.ofNat_tmod]
  by_cases hx : x < 0
  · rw [if_pos (decide_eq_true hx), Int.ofNat_natAbs_of_nonpos (by omega), Int.neg_tmod,
      Int.neg_neg, hy]
  · rw [if_neg (by rw [decide_eq_true_eq]; exact hx), Int.natAbs_of_nonneg (by omega : 0 ≤ x), hy]

/-- The quotient and the remainder of a division that truncates. -/
theorem exists_divmodti3 (x y : BitVec 128) (hy : y.toInt ≠ 0)
    (hoverflow : ¬ (x.toInt = -2 ^ 127 ∧ y.toInt = -1)) :
    ∃ q r, divmodti3 x y = some (q, r) ∧ q.toInt = x.toInt.tdiv y.toInt ∧
      r.toInt = x.toInt.tmod y.toInt := by
  have hpos : 0 < 128 := by omega
  have hx := SignMask.toNat_fold_mask hpos x
  have hy' := SignMask.toNat_fold_mask hpos y
  obtain ⟨q, r, hdiv, hq, hr⟩ := udivmodti4_eq (a := SignMask.fold x (SignMask.mask x))
    (b := SignMask.fold y (SignMask.mask y)) (by rw [hy']; omega)
  rw [hx, hy'] at hq hr
  have hx₁ : -2 ^ 127 ≤ x.toInt := BitVec.le_toInt x
  have hx₂ : x.toInt < 2 ^ 127 := BitVec.toInt_lt
  have hy₁ : -2 ^ 127 ≤ y.toInt := BitVec.le_toInt y
  have hy₂ : y.toInt < 2 ^ 127 := BitVec.toInt_lt
  -- only the smallest number by one or less one needs all bits
  have hquotient : 2 * q.toNat < 2 ^ 128 ∨ (y.msb ^^ x.msb) = true ∧ 2 * q.toNat = 2 ^ 128 := by
    rcases Nat.lt_or_ge (x.toInt.natAbs / y.toInt.natAbs) (2 ^ 127) with hlt | hge
    · exact Or.inl (by omega)
    · have hle := Nat.mul_le_of_le_div _ _ _ hge
      have hone : y.toInt.natAbs = 1 := by
        by_contra hne
        have : 2 ^ 127 * 2 ≤ 2 ^ 127 * y.toInt.natAbs := Nat.mul_le_mul_left _ (by omega)
        omega
      rw [hone, Nat.div_one] at hq
      rw [BitVec.msb_eq_toInt, BitVec.msb_eq_toInt, decide_eq_true (by omega : x.toInt < 0),
        decide_eq_false (by omega)]
      exact Or.inr ⟨rfl, by omega⟩
  have hremainder : 2 * r.toNat < 2 ^ 128 := by
    have := Nat.mod_lt x.toInt.natAbs (by omega : 0 < y.toInt.natAbs)
    omega
  refine ⟨SignMask.fold q (SignMask.mask y ^^^ SignMask.mask x),
    SignMask.fold r (SignMask.mask x), by rw [divmodti3, hdiv]; rfl, ?_⟩
  rw [SignMask.mask_eq hpos, SignMask.mask_eq hpos, SignMask.ofSign_xor,
    SignMask.toInt_fold q _ hquotient, SignMask.toInt_fold r _ (Or.inl hremainder), hq, hr,
    BitVec.msb_eq_toInt, BitVec.msb_eq_toInt, ← tdiv_eq_natAbs, ← tmod_eq_natAbs]
  exact ⟨rfl, rfl⟩

/-- **`divmodti3` truncates towards zero**, and the remainder is what is
left. Every `divq` on the way has a quotient of 64 bits. -/
theorem divmodti3_eq (x y : BitVec 128) (hy : y.toInt ≠ 0)
    (hoverflow : ¬ (x.toInt = -2 ^ 127 ∧ y.toInt = -1)) :
    ∃ q r, divmodti3 x y = some (q, r) ∧ q.toInt = x.toInt.tdiv y.toInt ∧
      r.toInt = x.toInt - q.toInt * y.toInt := by
  obtain ⟨q, r, hdiv, hq, hr⟩ := exists_divmodti3 x y hy hoverflow
  refine ⟨q, r, hdiv, hq, ?_⟩
  rw [hr, hq, Int.tmod_def, Int.mul_comm]

/-- Minus seven by two is minus three, and minus one is left. -/
theorem divmodti3_eq_minusSeven :
    ∃ q r, divmodti3 (-7) 2 = some (q, r) ∧ q.toInt = -3 ∧ r.toInt = -1 := by
  obtain ⟨q, r, hdiv, hq, hr⟩ := divmodti3_eq (-7) 2 (by decide) (by decide)
  refine ⟨q, r, hdiv, hq.trans (by decide), hr.trans ?_⟩
  rw [hq]
  decide

end Decimal

end CppEtudes
