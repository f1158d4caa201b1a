import CppEtudes.Common.DecimalText
import CppEtudes.Decimal.Model.ToString
import Mathlib.Algebra.Order.Ring.Int
import Mathlib.Algebra.Order.Ring.Rat
import Mathlib.Tactic.FieldSimp
import Mathlib.Tactic.Ring

/-!
# What the text of a decimal denotes

The sign of a decimal is printed with its whole part, and a whole part of
zero has none: a negative decimal with no whole part is printed like the
positive one. Every other text denotes its decimal.
-/

namespace CppEtudes

namespace Decimal

open DecimalText

theorem exp10_eq (n : ℕ) : exp10 n = 10 ^ n := by
  induction n with
  | zero => rfl
  | succ n ih => rw [exp10, ih, pow_succ]

theorem exp10sAt_natCast {n : ℕ} (h : n ≤ 18) : exp10sAt n = some (10 ^ n) := by
  rw [exp10sAt, if_pos (Int.natCast_nonneg n), exp10s, Int.toNat_natCast, List.getElem?_map,
    List.getElem?_range (by omega), Option.map_some, exp10_eq]

theorem wrap64_of_lt {x : ℤ} (h₁ : -2 ^ 63 ≤ x) (h₂ : x < 2 ^ 63) : wrap64 x = x := by
  rw [wrap64, Int.emod_eq_of_lt (by omega) (by omega)]
  omega

/-! ## Printed parts -/

section Parts

variable {p s : ℕ} {d : ℤ}

/-- A whole part and a fraction, as `to_string` prints them. -/
def text (whole : ℤ) (frac width : ℕ) : List Char :=
  printInt whole ++ '.' :: (Nat.toDigits 10 frac).leftpad width '0'

theorem printInt_natCast (n : ℕ) : printInt n = Nat.toDigits 10 n := if_neg (by omega)

/-- **Both parts fit in 64 bits.** -/
theorem toString_eq (hs : s ≤ 18) (hsp : s ≤ p) (hp : p ≤ s + 18) (hd : |d| < 10 ^ p) :
    toString d p s = some (text (d.tdiv (10 ^ s)) (d.natAbs % 10 ^ s) s) := by
  have hpow : 10 ^ s ≤ 10 ^ 18 := Nat.pow_le_pow_right (by omega) hs
  have hpos : 0 < 10 ^ s := Nat.pow_pos (by omega)
  have hnat : ((10 : ℤ) ^ s).natAbs = 10 ^ s := Int.natAbs_pow 10 s
  have hwhole : (d.tdiv (10 ^ s)).natAbs < 10 ^ 18 := by
    have hlt : d.natAbs < 10 ^ s * 10 ^ 18 := by
      rw [← pow_add]
      rw [Int.abs_eq_natAbs] at hd
      exact (by exact_mod_cast hd : d.natAbs < 10 ^ p).trans_le
        (Nat.pow_le_pow_right (by omega) hp)
    rw [Int.natAbs_tdiv, hnat]
    exact Nat.div_lt_of_lt_mul hlt
  have hfrac : (d.tmod (10 ^ s)).natAbs = d.natAbs % 10 ^ s := by
    rw [Int.natAbs_tmod, hnat]
  have hmod := Nat.mod_lt d.natAbs hpos
  have hindex : (p : ℤ) - s = ((p - s : ℕ) : ℤ) := by omega
  have habs : abs64 (wrap64 (d.tmod (10 ^ s))) = ((d.natAbs % 10 ^ s : ℕ) : ℤ) := by
    rw [wrap64_of_lt (by omega) (by omega), abs64]
    split_ifs
    · rw [wrap64_of_lt (by omega) (by omega)]
      omega
    · omega
  rw [toString, hindex, exp10sAt_natCast (by omega), exp10sAt_natCast hs]
  simp only [Option.bind_eq_bind, Option.bind_some, Option.pure_def, habs, printInt_natCast,
    Int.toNat_natCast]
  rw [wrap64_of_lt (by omega) (by omega), text]

end Parts

/-! ## Texts that are read -/

section Reading

variable {s f : ℕ}

/-- The fraction has one digit for each power of ten, or it is zero. -/
theorem frac_div_eq (hf : f < 10 ^ s) :
    (f : ℚ) / 10 ^ ((Nat.toDigits 10 f).leftpad s '0').length = f / 10 ^ s := by
  rcases Nat.eq_zero_or_pos s with rfl | hs
  · rw [pow_zero, Nat.lt_one_iff] at hf
    rw [hf, Nat.cast_zero, zero_div, zero_div]
  · have hlen := (Nat.length_toDigits_le_iff (b := 10) (by omega) hs).2 hf
    rw [List.length_leftpad, Nat.max_eq_left hlen]

theorem readDecimal_text (w : ℤ) (hf : f < 10 ^ s) :
    readDecimal (text w f s) =
      some (if w < 0 then -((w.natAbs : ℚ) + f / 10 ^ s) else (w.natAbs : ℚ) + f / 10 ^ s) := by
  have hread := readUnsigned_point (readNat_toDigits w.natAbs)
    (readNat_leftpad (readNat_toDigits f) s)
  rw [frac_div_eq hf] at hread
  rw [text, printInt]
  split_ifs with hneg
  · rw [List.cons_append, readDecimal.eq_1, hread]
    rfl
  · rw [readDecimal_of_readNat (readNat_toDigits w.natAbs), hread]

theorem toDigits_injective {m n : ℕ} (h : Nat.toDigits 10 m = Nat.toDigits 10 n) : m = n := by
  have hread := readNat_toDigits m
  rw [h, readNat_toDigits] at hread
  exact (Option.some.inj hread).symm

theorem notMem_toDigits {c : Char} (hc : c.isDigit = false) (n : ℕ) : c ∉ Nat.toDigits 10 n :=
  fun hmem => absurd (isDigit_of_readNat (readNat_toDigits n) hmem) (by rw [hc]; decide)

theorem printInt_injective {m n : ℤ} (h : printInt m = printInt n) : m = n := by
  have hsign : ∀ {i j : ℕ}, '-' :: Nat.toDigits 10 i ≠ Nat.toDigits 10 j := fun hij =>
    notMem_toDigits (c := '-') (by decide) _ (hij ▸ List.mem_cons_self)
  rw [printInt, printInt] at h
  split_ifs at h with hm hn hn
  · have := toDigits_injective (List.cons.inj h).2
    omega
  · exact absurd h hsign
  · exact absurd h.symm hsign
  · have := toDigits_injective h
    omega

/-- **Different parts are printed differently.** -/
theorem text_inj {w w' : ℤ} {f' : ℕ} : text w f s = text w' f' s ↔ w = w' ∧ f = f' := by
  refine ⟨fun h => ?_, fun ⟨hw, hf⟩ => by rw [hw, hf]⟩
  have hfrac (k : ℕ) := readNat_leftpad (readNat_toDigits k) s
  have hwhole (i : ℤ) : '.' ∉ printInt i := by
    have hpoint := notMem_toDigits (c := '.') (by decide) i.natAbs
    rw [printInt]
    split_ifs
    · exact List.not_mem_cons_of_ne_of_not_mem (by decide) hpoint
    · exact hpoint
  rw [text, text, List.append_cons_inj_of_notMem (hwhole w) (point_notMem_of_readNat (hfrac f))] at h
  refine ⟨printInt_injective h.1, ?_⟩
  have hread := hfrac f
  rw [h.2.2, hfrac] at hread
  exact (Option.some.inj hread).symm

end Reading

/-! ## Decimals and their parts -/

section Decimals

variable {b : ℕ} {d d' : ℤ}

theorem natAbs_tdiv_natCast (d : ℤ) (b : ℕ) : (d.tdiv b).natAbs = d.natAbs / b :=
  Int.natAbs_tdiv ..

/-- The whole part has the sign of the decimal, or it is zero. -/
theorem tdiv_neg_iff (hb : 0 < b) : d.tdiv b < 0 ↔ d ≤ -b := by
  obtain ⟨n, rfl | rfl⟩ := Int.eq_nat_or_neg d
  · rw [← Int.ofNat_tdiv]
    exact iff_of_false (Int.not_lt.2 (Int.natCast_nonneg _)) (by omega)
  · rw [Int.neg_tdiv, ← Int.ofNat_tdiv]
    have hpos : 0 < n / b ↔ b ≤ n := by rw [Nat.div_pos_iff, and_iff_right hb]
    omega

theorem parts_inj (hb : 0 < b) :
    d.tdiv b = d'.tdiv b ∧ d.natAbs % b = d'.natAbs % b ↔ d = d' ∨ |d| = |d'| ∧ |d| < b := by
  rw [Int.abs_eq_natAbs, Int.abs_eq_natAbs]
  refine ⟨fun ⟨hdiv, hmod⟩ => ?_, ?_⟩
  · have hquot := congrArg Int.natAbs hdiv
    rw [natAbs_tdiv_natCast, natAbs_tdiv_natCast] at hquot
    have habs : d.natAbs = d'.natAbs := by
      rw [← Nat.div_add_mod d.natAbs b, ← Nat.div_add_mod d'.natAbs b, hquot, hmod]
    rcases Int.natAbs_eq_natAbs_iff.1 habs with heq | hneg
    · exact Or.inl heq
    · -- a decimal and its negative have the same whole part only if it is zero
      rw [hneg, Int.neg_tdiv] at hdiv
      have hzero : d'.natAbs / b = 0 := by
        rw [← natAbs_tdiv_natCast]
        omega
      have hlt : d'.natAbs < b := (Nat.div_eq_zero_iff_lt hb).1 hzero
      exact Or.inr ⟨by omega, by omega⟩
  · rintro (rfl | ⟨habs, hlt⟩)
    · exact ⟨rfl, rfl⟩
    · have hzero {i : ℤ} (hi : i.natAbs < b) : i.tdiv b = 0 := by
        rw [← Int.natAbs_eq_zero, natAbs_tdiv_natCast]
        exact Nat.div_eq_of_lt hi
      have habs' : d.natAbs = d'.natAbs := by omega
      rw [hzero (by omega), hzero (by omega), habs']
      exact ⟨rfl, rfl⟩

theorem div_add_mod_div (hb : 0 < b) (n : ℕ) :
    ((n / b : ℕ) : ℚ) + ((n % b : ℕ) : ℚ) / b = n / b := by
  have hb' : (b : ℚ) ≠ 0 := Nat.cast_ne_zero.2 hb.ne'
  have hsplit : (n : ℚ) = b * (n / b : ℕ) + (n % b : ℕ) := by
    exact_mod_cast (Nat.div_add_mod n b).symm
  rw [hsplit, add_div, mul_div_cancel_left₀ _ hb']

end Decimals

section Text

variable {p s : ℕ} {d d' : ℤ}

/-- **What the text of a decimal denotes.** -/
theorem readDecimal_text_parts (s : ℕ) (d : ℤ) :
    readDecimal (text (d.tdiv (10 ^ s)) (d.natAbs % 10 ^ s) s) =
      some (if d ≤ -10 ^ s then (d : ℚ) / 10 ^ s else |(d : ℚ)| / 10 ^ s) := by
  have hpos : 0 < 10 ^ s := Nat.pow_pos (by omega)
  have hcast : (10 : ℤ) ^ s = ((10 ^ s : ℕ) : ℤ) := by push_cast; rfl
  have hcast' : (10 : ℚ) ^ s = ((10 ^ s : ℕ) : ℚ) := by push_cast; rfl
  have hsign := tdiv_neg_iff (d := d) hpos
  rw [readDecimal_text _ (Nat.mod_lt _ hpos), hcast, hcast', natAbs_tdiv_natCast,
    div_add_mod_div hpos, ← Int.cast_abs, Int.abs_eq_natAbs, Int.cast_natCast, if_congr hsign rfl rfl]
  split_ifs with hneg
  · have hd : (d : ℚ) = -(d.natAbs : ℚ) := by
      rw [← Int.cast_natCast, ← Int.cast_neg, Int.cast_inj]
      omega
    rw [hd, neg_div]
  · rfl

/-- **The text denotes the decimal** unless the decimal is negative with
no whole part; and two texts are the same only for such a decimal and its
absolute value. -/
theorem toString_denotes_iff (hs : s ≤ 18) (hsp : s ≤ p) (hp : p ≤ s + 18) (hd : |d| < 10 ^ p) :
    ((∃ t, toString d p s = some t ∧ readDecimal t = some ((d : ℚ) / 10 ^ s)) ↔
        0 ≤ d ∨ d ≤ -10 ^ s) ∧
      ∀ d' : ℤ, |d'| < 10 ^ p →
        (toString d p s = toString d' p s ↔ d = d' ∨ |d| = |d'| ∧ |d| < 10 ^ s) := by
  have hpos : 0 < 10 ^ s := Nat.pow_pos (by omega)
  have hcast : (10 : ℤ) ^ s = ((10 ^ s : ℕ) : ℤ) := by push_cast; rfl
  rw [toString_eq hs hsp hp hd]
  refine ⟨?_, fun d' hd' => ?_⟩
  · have hpow : (10 : ℚ) ^ s ≠ 0 := pow_ne_zero s (by norm_num)
    simp only [Option.some.injEq, exists_eq_left', readDecimal_text_parts]
    by_cases hwhole : d ≤ -10 ^ s
    · rw [if_pos hwhole]
      exact iff_of_true rfl (Or.inr hwhole)
    · rw [if_neg hwhole, div_left_inj' hpow, abs_eq_self, Int.cast_nonneg_iff, or_iff_left hwhole]
  · rw [toString_eq hs hsp hp hd', Option.some.injEq, text_inj, hcast]
    exact parts_inj hpos

end Text

/-- The witness: minus one and a half. -/
theorem toString_denotes_iff_minusFifteen :
    ∃ t, toString (-15) (2 : ℕ) (1 : ℕ) = some t ∧
      readDecimal t = some (((-15 : ℤ) : ℚ) / 10 ^ 1) :=
  (toString_denotes_iff (p := 2) (s := 1) (d := -15) (by decide) (by decide) (by decide)
    (by decide)).1.2 (Or.inr (by decide))

/-- Minus a half is printed like a half. -/
theorem toString_minusHalf :
    toString (-5) 2 1 = some ['0', '.', '5'] ∧ toString 5 2 1 = some ['0', '.', '5'] := by
  decide +kernel

end Decimal

end CppEtudes
