import Mathlib.Algebra.Field.Rat
import Mathlib.Algebra.Ring.Nat
import Mathlib.Data.List.Basic
import Mathlib.Tactic.Common

/-!
# Decimal numbers as texts

What a text of digits denotes, with a sign before it and a fraction
behind a point. Zeros in front of a number change nothing.
-/

namespace CppEtudes

namespace DecimalText

/-- A number without a sign and a point. -/
def readNat (t : List Char) : Option ℕ :=
  if t ≠ [] ∧ t.all Char.isDigit then some (Nat.ofDigitChars 10 t 0) else none

/-- A number without a sign. -/
def readUnsigned (t : List Char) : Option ℚ :=
  match t.dropWhile (· ≠ '.') with
  | [] => (readNat t).map Nat.cast
  | _ :: frac => do
    let whole ← readNat (t.takeWhile (· ≠ '.'))
    let part ← readNat frac
    return whole + part / 10 ^ frac.length

/-- **The number a text denotes.** -/
def readDecimal : List Char → Option ℚ
  | '-' :: t => (readUnsigned t).map fun q => -q
  | t => readUnsigned t

variable {t whole frac : List Char} {n m : ℕ}

theorem readNat_eq_some_iff : readNat t = some n ↔
    (t ≠ [] ∧ ∀ c ∈ t, c.isDigit) ∧ Nat.ofDigitChars 10 t 0 = n := by
  rw [readNat, Option.ite_none_right_eq_some, Option.some.injEq, List.all_eq_true]

theorem isDigit_of_readNat (h : readNat t = some n) {c : Char} (hc : c ∈ t) : c.isDigit = true :=
  (readNat_eq_some_iff.1 h).1.2 c hc

theorem point_notMem_of_readNat (h : readNat t = some n) : '.' ∉ t := fun hc =>
  absurd (isDigit_of_readNat h hc) (by decide)

/-- **A printed number is read back.** -/
theorem readNat_toDigits (n : ℕ) : readNat (Nat.toDigits 10 n) = some n :=
  readNat_eq_some_iff.2 ⟨⟨Nat.toDigits_ne_nil, fun _ hc =>
    Nat.isDigit_of_mem_toDigits (by decide) (by decide) hc⟩, Nat.ofDigitChars_ten_toDigits⟩

/-- Zeros in front. -/
theorem readNat_leftpad (h : readNat t = some n) (k : ℕ) : readNat (t.leftpad k '0') = some n := by
  obtain ⟨⟨hne, hdigits⟩, rfl⟩ := readNat_eq_some_iff.1 h
  rw [List.leftpad, readNat_eq_some_iff, Nat.ofDigitChars_append, Nat.ofDigitChars_replicate_zero,
    Nat.mul_zero]
  refine ⟨⟨fun hnil => hne (List.append_eq_nil_iff.1 hnil).2, fun c hc => ?_⟩, rfl⟩
  rcases List.mem_append.1 hc with hc | hc
  · rw [List.eq_of_mem_replicate hc]
    rfl
  · exact hdigits c hc

/-- **A number with a fraction.** -/
theorem readUnsigned_point (hwhole : readNat whole = some n) (hfrac : readNat frac = some m) :
    readUnsigned (whole ++ '.' :: frac) = some ((n : ℚ) + m / 10 ^ frac.length) := by
  have hpoint : ∀ c ∈ whole, decide (c ≠ '.') = true := fun c hc =>
    decide_eq_true (ne_of_mem_of_not_mem hc (point_notMem_of_readNat hwhole))
  have hdrop : (whole ++ '.' :: frac).dropWhile (· ≠ '.') = '.' :: frac := by
    rw [List.dropWhile_append_of_pos hpoint]
    rfl
  have htake : (whole ++ '.' :: frac).takeWhile (· ≠ '.') = whole := by
    rw [List.takeWhile_append_of_pos hpoint]
    exact List.append_nil whole
  rw [readUnsigned, hdrop, htake, hwhole]
  dsimp only
  rw [hfrac]
  rfl

/-- A number without a sign is read as it is. -/
theorem readDecimal_of_readNat {rest : List Char} (h : readNat whole = some n) :
    readDecimal (whole ++ rest) = readUnsigned (whole ++ rest) := by
  obtain ⟨⟨hne, hdigits⟩, -⟩ := readNat_eq_some_iff.1 h
  rcases whole with - | ⟨c, whole⟩
  · exact absurd rfl hne
  · have hc : c ≠ '-' := by
      rintro rfl
      exact absurd (hdigits '-' List.mem_cons_self) (by decide)
    rw [List.cons_append, readDecimal.eq_2]
    rintro t ⟨⟩
    exact hc rfl

end DecimalText

end CppEtudes
