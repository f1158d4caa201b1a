import Mathlib.Algebra.Ring.Int.Defs
import Mathlib.Algebra.Ring.Nat

/-!
# `CKDecimalOp`

The products of `CKDecimalOp`, on words of 128 bits that wrap around. The
check works on the absolute values: it divides their product, which may
have wrapped around, by one factor and compares with the other one.
-/

namespace CppEtudes

namespace Decimal

namespace CKDecimalOp

/-- `(x > 0) ? x : -x`. -/
def magnitude (x : BitVec 128) : BitVec 128 := if (0#128).slt x then x else -x

/-- **`mulOverflow`**: what it returns, and `res`. -/
def mulOverflow (x y : BitVec 128) : Bool × BitVec 128 :=
  let res := x * y
  if x = 0 ∨ y = 0 then (false, res)
  else
    let a := magnitude x
    let b := magnitude y
    (a * b / b ≠ a, res)

/-- **`mul`**, by the parameters of the template. -/
def mul (checkOverflow canOverflow : Bool) (a b : BitVec 128) : BitVec 128 :=
  if canOverflow && checkOverflow then
    let (overflow, res) := mulOverflow a b
    if overflow then 0 else res
  else a * b

end CKDecimalOp

end Decimal

end CppEtudes
