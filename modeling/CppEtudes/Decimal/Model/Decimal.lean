import Mathlib.Algebra.Ring.Int.Defs
import Mathlib.Data.Nat.Log

/-!
# Decimals

`DorisDecimalOp`: a decimal is an `int128_t` that counts billionths.
Signed arithmetic wraps around. `mul`, `mulOverflow` and `div` work on the
absolute values and put the sign back.
-/

namespace CppEtudes

namespace Decimal

/-- A value converted to `int128_t`. -/
def wrap128 (x : ℤ) : ℤ := (x + 2 ^ 127) % 2 ^ 128 - 2 ^ 127

/-- A value converted to `unsigned __int128`. -/
def toUnsigned (x : ℤ) : ℕ := (x % 2 ^ 128).toNat

def oneBillion : ℤ := 1000000000

def maxIntValue : ℤ := 999999999999999999

def maxFracValue : ℤ := 999999999

def maxDecimalValue : ℤ := maxIntValue * oneBillion + maxFracValue

def minDecimalValue : ℤ := -maxDecimalValue

/-- The error codes that are returned. -/
inductive Error
  | ok
  | truncated
  | overflow
  deriving DecidableEq, Repr

/-- `abs`. -/
def abs (x : ℤ) : ℤ := if x < 0 then wrap128 (-x) else x

/-- `__builtin_clzll`, of a number that is not zero. -/
def builtinClzll (v : ℕ) : ℕ := 63 - Nat.log2 v

/-- `clz128`; of zero it is the size in bytes. -/
def clz128 (v : ℕ) : ℕ :=
  if v = 0 then 16
  else if v >>> 64 ≠ 0 then builtinClzll (v >>> 64)
  else builtinClzll v + 64

/-- `~(1 << 127)`. -/
def max128 : ℤ := 2 ^ 127 - 1

/-- The end of `do_mul` and `do_div`: truncate with round. -/
def rounded (result remainder half : ℤ) : Error × ℤ :=
  if remainder ≠ 0 then
    (.truncated, if half ≤ remainder then wrap128 (result + 1) else result)
  else (.ok, result)

/-- **`do_mul`**: the error and the result. -/
def doMul (x y : ℤ) : Error × ℤ :=
  let leadingZeroBits := clz128 (toUnsigned x) + clz128 (toUnsigned y)
  -- `sizeof(int128_t)` is a number of bytes
  if leadingZeroBits < 16 ∨ max128.tdiv x < y then (.overflow, maxDecimalValue)
  else
    let product := wrap128 (x * y)
    let result := product.tdiv oneBillion
    if maxDecimalValue < result then (.overflow, maxDecimalValue)
    else rounded result (product.tmod oneBillion) (oneBillion >>> (1 : ℕ))

/-- **`do_div`**: the error and the result. -/
def doDiv (x y : ℤ) : Error × ℤ :=
  let dividend := wrap128 (x * oneBillion)
  rounded (dividend.tdiv y) (dividend.tmod y) (y >>> (1 : ℕ))

/-- `is_positive`. -/
def isPositive (x y : ℤ) : Bool := (0 < x && 0 < y) || (x < 0 && y < 0)

/-- What `mul` and `div` do with an operation on absolute values. -/
def signed (op : ℤ → ℤ → Error × ℤ) (x y : ℤ) : ℤ :=
  if x = 0 ∨ y = 0 then 0
  else
    let result := (op (abs x) (abs y)).2
    if isPositive x y then result else wrap128 (-result)

/-- `unsignedMulOverflow`: whether the product is too large, and the
product. -/
def unsignedMulOverflow (x y : ℤ) : Bool × ℤ :=
  let leadingZeroBits := clz128 (toUnsigned x) + clz128 (toUnsigned y)
  (leadingZeroBits < 16 ∨ max128.tdiv x < y, wrap128 (x * y))

/-- **`mulOverflow`**: what it returns, and `result` behind it. A product
by zero leaves `result` as it was. -/
def mulOverflow (x y result : ℤ) : Bool × ℤ :=
  if x = 0 ∨ y = 0 then (false, result)
  else
    let (overflow, product) := unsignedMulOverflow (abs x) (abs y)
    (overflow, if isPositive x y then product else wrap128 (-product))

/-- `do_add`: the error and the result. -/
def doAdd (x y : ℤ) : Error × ℤ :=
  if y ≤ wrap128 (maxDecimalValue - x) then (.ok, wrap128 (x + y))
  else (.overflow, maxDecimalValue)

/-- `do_sub`: the error and the result. -/
def doSub (x y : ℤ) : Error × ℤ := (.ok, wrap128 (x - y))

/-- **`add`.** -/
def add (x y : ℤ) : ℤ :=
  if x = 0 then y
  else if y = 0 then x
  else if 0 < x then
    if 0 < y then (doAdd x y).2 else (doSub x (wrap128 (-y))).2
  else if 0 < y then (doSub y (wrap128 (-x))).2
  else wrap128 (-(doAdd (wrap128 (-x)) (wrap128 (-y))).2)

/-- **`mul`.** -/
def mul (x y : ℤ) : ℤ := signed doMul x y

/-- **`div`**; a quotient by zero is zero. -/
def div (x y : ℤ) : ℤ := signed doDiv x y

end Decimal

end CppEtudes
