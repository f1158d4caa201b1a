import CppEtudes.Common.SignMask
import CppEtudes.Decimal.Model.Decimal

/-!
# Division of 128-bit integers

`divmodti3` and what it calls. `int128_t` and `uint128_t` are words of 128
bits, which wrap around; an `int128_wrapper` has two halves of 64. What
`divq` does not divide, a division by zero, the leading zeros of zero and
a negative shift have no result.
-/

namespace CppEtudes

namespace Decimal

/-- `u.high` of a wrapper. -/
def high (x : BitVec 128) : BitVec 64 := x.extractLsb' 64 64

/-- `u.low` of a wrapper. -/
def low (x : BitVec 128) : BitVec 64 := x.extractLsb' 0 64

/-- `divq`: a quotient that does not fit in 64 bits is an exception. -/
def divq (rdx rax v : BitVec 64) : Option (BitVec 64 × BitVec 64) :=
  let u := rdx.toNat * 2 ^ 64 + rax.toNat
  if v.toNat ≠ 0 ∧ u / v.toNat < 2 ^ 64 then
    some (BitVec.ofNat 64 (u / v.toNat), BitVec.ofNat 64 (u % v.toNat))
  else none

/-- `udiv128by64to64`: the quotient and the remainder. -/
def udiv128by64to64 (u₁ u₀ v : BitVec 64) : Option (BitVec 64 × BitVec 64) := divq u₁ u₀ v

/-- `__builtin_clzll`, which is undefined at zero. -/
def clzll (v : BitVec 64) : Option ℕ := if v = 0 then none else some (builtinClzll v.toNat)

/-! ## Division without `divq` -/

/-- `b`, the base of the digits. -/
def base : BitVec 64 := 1 <<< 32

/-- The loop that corrects a quotient digit, with at most `rounds` rounds:
its body has run once more than allowed where there is no result. -/
def correctDigit (vn₁ vn₀ un : BitVec 64) : ℕ → BitVec 64 → BitVec 64 → Option (BitVec 64)
  | rounds, q, rhat =>
    if q ≥ base ∨ q * vn₀ > base * rhat + un then
      match rounds with
      | 0 => none
      | rounds + 1 =>
        if rhat + vn₁ ≥ base then some (q - 1)
        else correctDigit vn₁ vn₀ un rounds (q - 1) (rhat + vn₁)
    else some q

/-- A quotient digit of `un * b + w` by `v`, and what is left. -/
def quotientDigit (rounds : ℕ) (un w v : BitVec 64) : Option (BitVec 64 × BitVec 64) :=
  let vn₁ := v >>> 32
  let vn₀ := v &&& 0xFFFFFFFF
  if vn₁ = 0 then none
  else do
    let q ← correctDigit vn₁ vn₀ w rounds (un / vn₁) (un - un / vn₁ * vn₁)
    return (q, un * base + w - q * v)

/-- The shift `s` that normalizes the divisor, with `v`, `un64` and `un10`
after it. -/
def normalize (u₁ u₀ v : BitVec 64) : Option (ℕ × BitVec 64 × BitVec 64 × BitVec 64) := do
  let s ← clzll v
  if s > 0 then return (s, v <<< s, (u₁ <<< s) ||| (u₀ >>> (64 - s)), u₀ <<< s)
  else return (s, v, u₁, u₀)

/-- **`udiv128by64to64default`**: the quotient and the remainder, with at
most `rounds` rounds of each loop. -/
def udiv128by64to64default (rounds : ℕ) (u₁ u₀ v : BitVec 64) :
    Option (BitVec 64 × BitVec 64) := do
  let (s, v, un64, un10) ← normalize u₁ u₀ v
  let (q₁, un21) ← quotientDigit rounds un64 (un10 >>> 32) v
  let (q₀, rest) ← quotientDigit rounds un21 (un10 &&& 0xFFFFFFFF) v
  return (q₁ * base + q₀, rest >>> s)

/-! ## Division of 128 bits -/

/-- The loop of `udivmodti4`, with the low half of the quotient. -/
def shiftSubtract : ℕ → BitVec 64 → BitVec 128 → BitVec 128 → BitVec 64 × BitVec 128
  | 0, quotient, dividend, _ => (quotient, dividend)
  | rounds + 1, quotient, dividend, divisor =>
    let s := SignMask.mask (divisor - dividend - 1)
    shiftSubtract rounds ((quotient <<< 1) ||| (s &&& 1).setWidth 64)
      (dividend - (divisor &&& s)) (divisor >>> 1)

/-- **`udivmodti4`**: the quotient and the remainder. -/
def udivmodti4 (a b : BitVec 128) : Option (BitVec 128 × BitVec 128) :=
  if a < b then some (0, a)
  else if high b = 0 then
    if high a < low b then do
      let (quotient, remainder) ← udiv128by64to64 (high a) (low a) (low b)
      return (0#64 ++ quotient, 0#64 ++ remainder)
    else if low b = 0 then none
    else do
      let (quotient, remainder) ← udiv128by64to64 (high a % low b) (low a) (low b)
      return (high a / low b ++ quotient, 0#64 ++ remainder)
  else do
    let clzDivisor ← clzll (high b)
    let clzDividend ← clzll (high a)
    if clzDividend ≤ clzDivisor then
      let shift := clzDivisor - clzDividend
      let (quotient, remainder) := shiftSubtract (shift + 1) 0 a (b <<< shift)
      return (0#64 ++ quotient, remainder)
    else none

/-- **`divmodti3`**: the quotient and the remainder. -/
def divmodti3 (x y : BitVec 128) : Option (BitVec 128 × BitVec 128) := do
  let sX := SignMask.mask x
  let sY := SignMask.mask y
  let (q, r) ← udivmodti4 (SignMask.fold x sX) (SignMask.fold y sY)
  return (SignMask.fold q (sY ^^^ sX), SignMask.fold r sX)

end Decimal

end CppEtudes
