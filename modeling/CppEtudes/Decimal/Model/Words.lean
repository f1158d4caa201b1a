import CppEtudes.Decimal.Model.DivMod

/-!
# Decimals as words

The versions of the operations that work on the words of an `int128_t`:
`multi3` multiplies the halves by themselves, `add2` clamps behind a mask
of the sign, and `mul2` and `div2` divide by `divmodti3`. A flag that is
returned as an `int` is 0 or 1.
-/

namespace CppEtudes

namespace Decimal

/-- `asm_add` of unsigned words: the flag, which is the carry or the sign
of the sum, and the sum. -/
def asmAdd (x y : BitVec 64) : Bool × BitVec 64 :=
  (BitVec.uaddOverflow x y || (x + y).msb, x + y)

/-- `asm_mul` of unsigned words: the flag, which says that the high half
of the product is not zero, and the product. -/
def asmMul (x y : BitVec 64) : Bool × BitVec 128 :=
  let product := x.setWidth 128 * y.setWidth 128
  (high product ≠ 0, product)

/-- `multi3` of two wrappers: what it returns, and the product. -/
def multi3Wrapper (x y : BitVec 128) : Bool × BitVec 128 :=
  if low x ||| high x = 0 ∧ low y ||| high y = 0 then (false, 0)
  else
    let overflow := high x ≠ 0 ∧ high y ≠ 0
    let res := (asmMul (low x) (low y)).2
    let (overflow₀, t₀) := asmMul (low x) (high y)
    let (overflow₁, t₁) := asmMul (low y) (high x)
    let (overflow₂, sum₀) := asmAdd (high res) (low t₀)
    let (overflow₃, sum₁) := asmAdd sum₀ (low t₁)
    (overflow || overflow₀ || overflow₁ || overflow₂ || overflow₃, sum₁ ++ low res)

/-- **`multi3`** of two signed numbers: what it returns, and the product. -/
def multi3 (x y : BitVec 128) : Bool × BitVec 128 :=
  let sX := SignMask.mask x
  let sY := SignMask.mask y
  let (overflow, wres) := multi3Wrapper (SignMask.fold x sX) (SignMask.fold y sY)
  (overflow, SignMask.fold wres (sX ^^^ sY))

/-- A decimal as a word. -/
def ofDecimal (x : ℤ) : BitVec 128 := BitVec.ofInt 128 x

/-- `do_add2`: the result. -/
def doAdd2 (x y : BitVec 128) : BitVec 128 :=
  let res := x + y
  let s := SignMask.mask res
  let res := SignMask.fold res s
  let res := if (ofDecimal maxDecimalValue).slt res then ofDecimal maxDecimalValue else res
  SignMask.fold res s

/-- **`add2`.** -/
def add2 (x y : BitVec 128) : BitVec 128 := doAdd2 x y

/-- The end of `mul2` and `div2`. The comparison is one of unsigned
numbers. -/
def roundedUp (result remainder half : BitVec 128) : BitVec 128 :=
  if remainder ≠ 0 ∧ half ≤ remainder then result + 1 else result

/-- **`mul2`.** -/
def mul2 (x y : BitVec 128) : Option (BitVec 128) := do
  let res := (multi3Wrapper x y).2
  let (res, remainder) ← divmodti3 res (ofDecimal oneBillion)
  return roundedUp res remainder (ofDecimal oneBillion >>> 1)

/-- **`div2`**; a quotient by zero is zero. -/
def div2 (x y : BitVec 128) : Option (BitVec 128) :=
  if x = 0 ∨ y = 0 then some 0
  else do
    let dividend := x * ofDecimal oneBillion
    let (result, remainder) ← divmodti3 dividend y
    return roundedUp result remainder (y.sshiftRight 1)

end Decimal

end CppEtudes
