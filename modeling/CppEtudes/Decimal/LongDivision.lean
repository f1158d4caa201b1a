import CppEtudes.Common.LongDivision
import CppEtudes.Decimal.DivMod

/-!
# Division without `divq`

`udiv128by64to64default` divides by two digits of 32 bits. The divisor is
shifted until its highest bit is set, and each quotient digit is estimated
and corrected (`LongDivision.correct_estimate`) in words of 64 bits. No
test of a correction wraps around; the products and differences that do
wrap have a remainder below the divisor as their value.
-/

namespace CppEtudes

namespace Decimal

variable {u₁ u₀ v un w : BitVec 64}

/-! ## Digits -/

theorem toNat_base : base.toNat = 2 ^ 32 := by decide

theorem toNat_highDigit (x : BitVec 64) : (x >>> 32).toNat = x.toNat / 2 ^ 32 := by
  rw [BitVec.toNat_ushiftRight, Nat.shiftRight_eq_div_pow]

theorem toNat_lowDigit (x : BitVec 64) : (x &&& 0xFFFFFFFF).toNat = x.toNat % 2 ^ 32 := by
  rw [BitVec.toNat_and, show (0xFFFFFFFF : BitVec 64).toNat = 2 ^ 32 - 1 from rfl,
    Nat.and_two_pow_sub_one_eq_mod]

/-- **The tests do not wrap around**: the products are compared only for a
digit of 32 bits. -/
theorem test_iff {q vn₀ rhat : BitVec 64} (hv : vn₀.toNat < 2 ^ 32) (hw : w.toNat < 2 ^ 32)
    (hr : rhat.toNat < 2 ^ 32) : (q ≥ base ∨ q * vn₀ > base * rhat + w) ↔
      (2 ^ 32 ≤ q.toNat ∨ 2 ^ 32 * rhat.toNat + w.toNat < q.toNat * vn₀.toNat) := by
  rw [ge_iff_le, gt_iff_lt, BitVec.le_def, BitVec.lt_def, toNat_base]
  refine or_congr_right' fun hq => ?_
  have hstrict : q.toNat * vn₀.toNat < 2 ^ 64 := by
    have : q.toNat * vn₀.toNat ≤ (2 ^ 32 - 1) * 2 ^ 32 := Nat.mul_le_mul (by omega) (by omega)
    omega
  rw [BitVec.toNat_mul, BitVec.toNat_add, BitVec.toNat_mul, toNat_base,
    Nat.mod_eq_of_lt hstrict, Nat.mod_eq_of_lt (by omega : 2 ^ 32 * rhat.toNat < 2 ^ 64),
    Nat.mod_eq_of_lt (by omega)]

/-- **The loop on words is the loop on numbers.** -/
theorem map_toNat_correctDigit {vn₁ vn₀ : BitVec 64} (hv₁ : vn₁.toNat < 2 ^ 32)
    (hv₀ : vn₀.toNat < 2 ^ 32) (hw : w.toNat < 2 ^ 32) (rounds : ℕ) :
    ∀ q rhat : BitVec 64, rhat.toNat < 2 ^ 32 →
      (correctDigit vn₁ vn₀ w rounds q rhat).map BitVec.toNat =
        LongDivision.correct (2 ^ 32) w.toNat vn₁.toNat vn₀.toNat rounds q.toNat rhat.toNat := by
  induction rounds with
  | zero =>
    intro q rhat hr
    rw [correctDigit, LongDivision.correct]
    by_cases htest : q ≥ base ∨ q * vn₀ > base * rhat + w
    · rw [if_pos htest, if_pos ((test_iff hv₀ hw hr).1 htest)]
      rfl
    · rw [if_neg htest, if_neg (mt (test_iff hv₀ hw hr).2 htest)]
      rfl
  | succ rounds ih =>
    intro q rhat hr
    rw [correctDigit, LongDivision.correct]
    by_cases htest : q ≥ base ∨ q * vn₀ > base * rhat + w
    · have htest' := (test_iff hv₀ hw hr).1 htest
      have hpos : 1 ≤ q.toNat := by
        rcases htest' with h | h
        · omega
        · exact Nat.pos_of_ne_zero fun h0 => by simp [h0] at h
      have hq : (q - 1).toNat = q.toNat - 1 := BitVec.toNat_sub_of_le hpos
      have hrhat : (rhat + vn₁).toNat = rhat.toNat + vn₁.toNat := by
        rw [BitVec.toNat_add, Nat.mod_eq_of_lt (by omega)]
      have hbreak : rhat + vn₁ ≥ base ↔ 2 ^ 32 ≤ rhat.toNat + vn₁.toNat := by
        rw [ge_iff_le, BitVec.le_def, toNat_base, hrhat]
      rw [if_pos htest, if_pos htest']
      by_cases hle : 2 ^ 32 ≤ rhat.toNat + vn₁.toNat
      · rw [if_pos (hbreak.2 hle), if_pos hle, Option.map_some, hq]
      · rw [if_neg (mt hbreak.1 hle), if_neg hle, ih _ _ (by omega), hq, hrhat]
    · rw [if_neg htest, if_neg (mt (test_iff hv₀ hw hr).2 htest)]
      rfl

/-- **One digit**: of a normalized divisor and a dividend whose quotient is
a digit. -/
theorem quotientDigit_eq (hnorm : 2 ^ 63 ≤ v.toNat) (hun : un.toNat < v.toNat)
    (hw : w.toNat < 2 ^ 32) (n : ℕ) :
    ∃ q rest, quotientDigit (n + 2) un w v = some (q, rest) ∧
      q.toNat = (un.toNat * 2 ^ 32 + w.toNat) / v.toNat ∧
      rest.toNat = (un.toNat * 2 ^ 32 + w.toNat) % v.toNat ∧ q.toNat < 2 ^ 32 := by
  have hv := v.isLt
  have hv₁ := toNat_highDigit v
  have hv₀ := toNat_lowDigit v
  have hdigits : v.toNat = (v >>> 32).toNat * 2 ^ 32 + (v &&& 0xFFFFFFFF).toNat := by omega
  have hne : v >>> 32 ≠ 0 := fun h => by
    rw [h] at hv₁
    have : (0 : BitVec 64).toNat = 0 := rfl
    omega
  have hle : un.toNat / (v >>> 32).toNat * (v >>> 32).toNat ≤ un.toNat := Nat.div_mul_le_self _ _
  have hproduct : (un / (v >>> 32) * (v >>> 32)).toNat =
      un.toNat / (v >>> 32).toNat * (v >>> 32).toNat := by
    rw [BitVec.toNat_mul, BitVec.toNat_udiv, Nat.mod_eq_of_lt (Nat.lt_of_le_of_lt hle un.isLt)]
  have hrhat : (un - un / (v >>> 32) * (v >>> 32)).toNat =
      un.toNat - un.toNat / (v >>> 32).toNat * (v >>> 32).toNat := by
    rw [BitVec.toNat_sub_of_le (by rw [BitVec.le_def, hproduct]; exact hle), hproduct]
  have hmod : un.toNat % (v >>> 32).toNat < (v >>> 32).toNat := Nat.mod_lt _ (by omega)
  have hsplit := Nat.div_add_mod' un.toNat (v >>> 32).toNat
  have hlt₁ : (v >>> 32).toNat < 2 ^ 32 := by omega
  have hlt₀ : (v &&& 0xFFFFFFFF).toNat < 2 ^ 32 := by omega
  have hloop := map_toNat_correctDigit hlt₁ hlt₀ hw (n + 2) (un / (v >>> 32))
    (un - un / (v >>> 32) * (v >>> 32)) (by omega)
  rw [hrhat, BitVec.toNat_udiv, LongDivision.correct_estimate (by omega) hw (by omega) (by omega)
    (by omega) n, Option.map_eq_some_iff] at hloop
  obtain ⟨q, hcorrect, hq⟩ := hloop
  have hlt : q.toNat < 2 ^ 32 := by
    rw [hq]
    exact LongDivision.digit_lt (by omega) hw
  rw [LongDivision.digit, ← hdigits] at hq
  refine ⟨q, un * base + w - q * v, ?_, hq, ?_, hlt⟩
  · rw [quotientDigit, if_neg hne, hcorrect]
    rfl
  · -- the value of the difference is the remainder, modulo `2 ^ 64`
    have hdiv := Nat.div_add_mod' (un.toNat * 2 ^ 32 + w.toNat) v.toNat
    have hrest : (un.toNat * 2 ^ 32 + w.toNat) % v.toNat < v.toNat := Nat.mod_lt _ (by omega)
    rw [← hq] at hdiv
    rw [BitVec.toNat_sub, BitVec.toNat_add, BitVec.toNat_mul, BitVec.toNat_mul, toNat_base]
    omega

/-! ## Normalization -/

/-- **Two words are shifted** as one number, if the high one has room. -/
theorem shift_words (u₁ u₀ : BitVec 64) {s : ℕ} (hs : s ≤ 64)
    (hu : (u₁.toNat + 1) * 2 ^ s ≤ 2 ^ 64) :
    ((u₁ <<< s) ||| (u₀ >>> (64 - s))).toNat < (u₁.toNat + 1) * 2 ^ s ∧
      ((u₁ <<< s) ||| (u₀ >>> (64 - s))).toNat * 2 ^ 64 + (u₀ <<< s).toNat =
        (u₁.toNat * 2 ^ 64 + u₀.toNat) * 2 ^ s := by
  have hrest : 2 ^ (64 - s) * 2 ^ s = 2 ^ 64 := by rw [← Nat.pow_add, Nat.sub_add_cancel hs]
  have hsplit := Nat.div_add_mod u₀.toNat (2 ^ (64 - s))
  have hquot : u₀.toNat / 2 ^ (64 - s) < 2 ^ s :=
    Nat.div_lt_of_lt_mul (by rw [hrest]; exact u₀.isLt)
  have hpos : 0 < 2 ^ s := Nat.two_pow_pos s
  rw [Nat.succ_mul] at hu ⊢
  have hlow : (u₀ <<< s).toNat = u₀.toNat % 2 ^ (64 - s) * 2 ^ s := by
    rw [BitVec.toNat_shiftLeft, Nat.shiftLeft_eq, ← hrest, Nat.mul_mod_mul_right]
  have hhigh : ((u₁ <<< s) ||| (u₀ >>> (64 - s))).toNat =
      u₁.toNat * 2 ^ s + u₀.toNat / 2 ^ (64 - s) := by
    rw [BitVec.toNat_or, BitVec.toNat_shiftLeft, BitVec.toNat_ushiftRight,
      Nat.shiftRight_eq_div_pow, Nat.shiftLeft_eq, Nat.mod_eq_of_lt (by omega),
      ← Nat.shiftLeft_eq, ← Nat.shiftLeft_add_eq_or_of_lt hquot]
  refine ⟨by omega, ?_⟩
  rw [hhigh, hlow]
  calc (u₁.toNat * 2 ^ s + u₀.toNat / 2 ^ (64 - s)) * 2 ^ 64 + u₀.toNat % 2 ^ (64 - s) * 2 ^ s
      = u₁.toNat * 2 ^ s * 2 ^ 64 + u₀.toNat / 2 ^ (64 - s) * (2 ^ (64 - s) * 2 ^ s) +
          u₀.toNat % 2 ^ (64 - s) * 2 ^ s := by rw [hrest, Nat.add_mul]
    _ = (u₁.toNat * 2 ^ 64 + (2 ^ (64 - s) * (u₀.toNat / 2 ^ (64 - s)) +
          u₀.toNat % 2 ^ (64 - s))) * 2 ^ s := by ring
    _ = (u₁.toNat * 2 ^ 64 + u₀.toNat) * 2 ^ s := by rw [hsplit]

/-- The leading zeros of a word, as a shift that leaves it its value. -/
theorem exists_clzll (hv : v.toNat ≠ 0) : ∃ s ≤ 63, clzll v = some s ∧
    2 ^ 63 ≤ v.toNat * 2 ^ s ∧ v.toNat * 2 ^ s < 2 ^ 64 := by
  have hne : v ≠ 0 := fun h => hv (by rw [h]; rfl)
  obtain ⟨l, hl⟩ : ∃ l, l = Nat.log2 v.toNat := ⟨_, rfl⟩
  have hlow : 2 ^ l ≤ v.toNat := hl ▸ Nat.log2_self_le hv
  have hhigh : v.toNat < 2 ^ (l + 1) := hl ▸ Nat.lt_log2_self
  have hword : l < 64 := (Nat.pow_lt_pow_iff_right (by decide)).1 (Nat.lt_of_le_of_lt hlow v.isLt)
  refine ⟨63 - l, Nat.sub_le .., by rw [clzll, if_neg hne, builtinClzll, hl], ?_, ?_⟩
  · calc 2 ^ 63 = 2 ^ l * 2 ^ (63 - l) := by rw [← Nat.pow_add, show l + (63 - l) = 63 by omega]
      _ ≤ v.toNat * 2 ^ (63 - l) := Nat.mul_le_mul_right _ hlow
  · calc v.toNat * 2 ^ (63 - l) < 2 ^ (l + 1) * 2 ^ (63 - l) :=
          Nat.mul_lt_mul_of_pos_right hhigh (Nat.two_pow_pos _)
      _ = 2 ^ 64 := by rw [← Nat.pow_add, show l + 1 + (63 - l) = 64 by omega]

/-- **The shift multiplies both sides** by a power of two, and the divisor
has its highest bit set after it. -/
theorem normalize_eq (hu : u₁.toNat < v.toNat) (u₀ : BitVec 64) :
    ∃ s v' un64 un10, normalize u₁ u₀ v = some (s, v', un64, un10) ∧
      v'.toNat = v.toNat * 2 ^ s ∧ 2 ^ 63 ≤ v'.toNat ∧ un64.toNat < v'.toNat ∧
      un64.toNat * 2 ^ 64 + un10.toNat = (u₁.toNat * 2 ^ 64 + u₀.toNat) * 2 ^ s := by
  obtain ⟨s, hs, hclz, hlow, hhigh⟩ := exists_clzll (v := v) (by omega)
  have hu' : (u₁.toNat + 1) * 2 ^ s ≤ v.toNat * 2 ^ s := Nat.mul_le_mul_right _ hu
  have hv' : (v <<< s).toNat = v.toNat * 2 ^ s := by
    rw [BitVec.toNat_shiftLeft, Nat.shiftLeft_eq, Nat.mod_eq_of_lt hhigh]
  rw [normalize, hclz]
  dsimp only [Option.bind_eq_bind, Option.bind_some]
  by_cases h0 : s > 0
  · obtain ⟨hlt, hdividend⟩ := shift_words u₁ u₀ (Nat.le_succ_of_le hs)
      (hu'.trans (Nat.le_of_lt hhigh))
    rw [if_pos h0]
    refine ⟨_, _, _, _, rfl, hv', ?_, ?_, hdividend⟩
    · rwa [hv']
    · rw [hv']
      exact Nat.lt_of_lt_of_le hlt hu'
  · obtain rfl : s = 0 := by omega
    rw [Nat.pow_zero, Nat.mul_one] at hlow
    rw [if_neg h0]
    refine ⟨_, _, _, _, rfl, ?_, hlow, hu, ?_⟩
    · rw [Nat.pow_zero, Nat.mul_one]
    · rw [Nat.pow_zero, Nat.mul_one]

/-! ## The quotient -/

/-- **`udiv128by64to64default` divides**, with at most two rounds of each
loop: the digits and what is left after each are exact. -/
theorem udiv128by64to64default_eq (u₀ : BitVec 64) (hu : u₁.toNat < v.toNat) (n : ℕ) :
    ∃ s v' un64 un10 q₁ un21 q₀ rest q r,
      normalize u₁ u₀ v = some (s, v', un64, un10) ∧ v'.toNat = v.toNat * 2 ^ s ∧
      un64.toNat * 2 ^ 64 + un10.toNat = (u₁.toNat * 2 ^ 64 + u₀.toNat) * 2 ^ s ∧
      quotientDigit (n + 2) un64 (un10 >>> 32) v' = some (q₁, un21) ∧
      q₁.toNat = (un64.toNat * 2 ^ 32 + un10.toNat / 2 ^ 32) / v'.toNat ∧
      un21.toNat = (un64.toNat * 2 ^ 32 + un10.toNat / 2 ^ 32) % v'.toNat ∧
      quotientDigit (n + 2) un21 (un10 &&& 0xFFFFFFFF) v' = some (q₀, rest) ∧
      q₀.toNat = (un21.toNat * 2 ^ 32 + un10.toNat % 2 ^ 32) / v'.toNat ∧
      rest.toNat = (un21.toNat * 2 ^ 32 + un10.toNat % 2 ^ 32) % v'.toNat ∧
      q.toNat = q₁.toNat * 2 ^ 32 + q₀.toNat ∧
      udiv128by64to64default (n + 2) u₁ u₀ v = some (q, r) ∧
      q.toNat = (u₁.toNat * 2 ^ 64 + u₀.toNat) / v.toNat ∧
      r.toNat = (u₁.toNat * 2 ^ 64 + u₀.toNat) % v.toNat := by
  obtain ⟨s, v', un64, un10, hnormalize, hv', hnorm, hun, hdividend⟩ := normalize_eq hu u₀
  have hun10 := un10.isLt
  have hw₁ := toNat_highDigit un10
  have hw₀ := toNat_lowDigit un10
  obtain ⟨q₁, un21, hdigit₁, hq₁, hun21, hlt₁⟩ :=
    quotientDigit_eq hnorm hun (w := un10 >>> 32) (by omega) n
  rw [hw₁] at hq₁ hun21
  have hlt21 : un21.toNat < v'.toNat := by
    rw [hun21]
    exact Nat.mod_lt _ (by omega)
  obtain ⟨q₀, rest, hdigit₀, hq₀, hrest, hlt₀⟩ :=
    quotientDigit_eq hnorm hlt21 (w := un10 &&& 0xFFFFFFFF) (by omega) n
  rw [hw₀] at hq₀ hrest
  have hq : (q₁ * base + q₀).toNat = q₁.toNat * 2 ^ 32 + q₀.toNat := by
    rw [BitVec.toNat_add, BitVec.toNat_mul, toNat_base]
    omega
  have hboth := LongDivision.digit_digit (2 ^ 32) v'.toNat (by omega) un64.toNat
    (un10.toNat / 2 ^ 32) (un10.toNat % 2 ^ 32)
  rw [← hun21, ← hq₁, ← hq₀, ← hrest, Nat.div_add_mod', show 2 ^ 32 * 2 ^ 32 = 2 ^ 64 from rfl,
    hdividend, hv', Nat.mul_div_mul_right _ _ (Nat.two_pow_pos s), Nat.mul_mod_mul_right] at hboth
  refine ⟨s, v', un64, un10, q₁, un21, q₀, rest, q₁ * base + q₀, rest >>> s, hnormalize, hv',
    hdividend, hdigit₁, hq₁, hun21, hdigit₀, hq₀, hrest, hq, ?_, hq.trans hboth.1, ?_⟩
  · rw [udiv128by64to64default, hnormalize]
    dsimp only [Option.bind_eq_bind, Option.bind_some]
    rw [hdigit₁, Option.bind_some]
    dsimp only
    rw [hdigit₀]
    rfl
  · rw [BitVec.toNat_ushiftRight, Nat.shiftRight_eq_div_pow, hboth.2,
      Nat.mul_div_cancel _ (Nat.two_pow_pos s)]

theorem udiv128by64to64default_eq_seven : (1 : BitVec 64).toNat < (7 : BitVec 64).toNat ∧
    ∃ q r, udiv128by64to64default 2 1 5 7 = some (q, r) ∧
      q.toNat = (2 ^ 64 + 5) / 7 ∧ r.toNat = (2 ^ 64 + 5) % 7 := by
  have hlt : (1 : BitVec 64).toNat < (7 : BitVec 64).toNat := by decide
  refine ⟨hlt, ?_⟩
  obtain ⟨_, _, _, _, _, _, _, _, q, r, -, -, -, -, -, -, -, -, -, -, hdiv, hq, hr⟩ :=
    udiv128by64to64default_eq 5 hlt 0
  exact ⟨q, r, hdiv, hq, hr⟩

end Decimal

end CppEtudes
