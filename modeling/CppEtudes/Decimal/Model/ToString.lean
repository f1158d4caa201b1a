import Mathlib.Algebra.Ring.Int.Defs
import Mathlib.Algebra.Ring.Nat

/-!
# Decimals as texts

`to_string` prints the quotient and the remainder by a power of ten on
their own. A power that is not in the table has no result. The string
`sign` that the function computes is not printed.
-/

namespace CppEtudes

namespace Decimal

/-- A value converted to `int64_t`. -/
def wrap64 (x : ℤ) : ℤ := (x + 2 ^ 63) % 2 ^ 64 - 2 ^ 63

/-- `abs` of an `int64_t`. -/
def abs64 (x : ℤ) : ℤ := if x < 0 then wrap64 (-x) else x

/-- `Exp10<n>::value`. -/
def exp10 : ℕ → ℤ
  | 0 => 1
  | n + 1 => exp10 n * 10

/-- `exp10s`. -/
def exp10s : List ℤ := (List.range 19).map exp10

/-- `exp10s[i]`. -/
def exp10sAt (i : ℤ) : Option ℤ := if 0 ≤ i then exp10s[i.toNat]? else none

/-- An integer as a stream prints it. -/
def printInt (n : ℤ) : List Char :=
  if n < 0 then '-' :: Nat.toDigits 10 n.natAbs else Nat.toDigits 10 n.natAbs

/-- **`to_string`.** -/
def toString (decimal p s : ℤ) : Option (List Char) := do
  let _maxIntPart ← exp10sAt (p - s)
  let maxFracPart ← exp10sAt s
  let fracPart := abs64 (wrap64 (decimal.tmod maxFracPart))
  let intPart := wrap64 (decimal.tdiv maxFracPart)
  -- `setw(s)` with `setfill('0')` is for the fraction only
  return printInt intPart ++ '.' :: (printInt fracPart).leftpad s.toNat '0'

end Decimal

end CppEtudes
