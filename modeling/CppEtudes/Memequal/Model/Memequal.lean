import CppEtudes.Common.Codes

/-!
# Comparing memory

The functions of `memequal.hh`. A pointer is the bytes from it to the end
of its string; a read beyond them has no result.
-/

namespace CppEtudes

namespace Memequal

/-- Bytes `i` to `i + w` from a pointer on. -/
def load (w i : ℕ) (p : List UInt8) : Option (List UInt8) :=
  if i + w ≤ p.length then some ((p.drop i).take w) else none

/-- `reinterpret_cast<const uint…_t*>(p)[i]` of a word of `w` bytes. -/
def word (w i : ℕ) (p : List UInt8) : Option ℕ := (load w (w * i) p).map ofLittleEndian

/-- `_mm_testc_si128`: no bit of `b` is outside of `a`. -/
def testc (a b : List UInt8) : Bool := (List.zipWith (fun x y => ~~~x &&& y) a b).all (· == 0)

def xor (a b : List UInt8) : List UInt8 := List.zipWith (· ^^^ ·) a b

/-! ## The switch -/

/-- `if (p1[i] != p2[i]) return false;` and on with the next statement. -/
def ifSame (p₁ p₂ : List UInt8) (i : ℕ) (next : Option Bool) : Option Bool := do
  let a ← p₁[i]?
  let b ← p₂[i]?
  if a ≠ b then return false else next

/-- Two words at one place. -/
def sameWord (p₁ p₂ : List UInt8) (w i : ℕ) : Option Bool := do
  let a ← word w i p₁
  let b ← word w i p₂
  return a == b

/-- The switch over the bytes that are left, its cases falling through to
the next ones; case twelve goes to the label in front of case eight. -/
def memEqualRest (p₁ p₂ : List UInt8) (rest : ℕ) : Option Bool :=
  let case0 := some true
  let case1 := ifSame p₁ p₂ 0 case0
  let case2 := sameWord p₁ p₂ 2 0
  let case3 := ifSame p₁ p₂ 2 case2
  let case4 := sameWord p₁ p₂ 4 0
  let case5 := ifSame p₁ p₂ 4 case4
  let case6 := ifSame p₁ p₂ 5 case5
  let case7 := ifSame p₁ p₂ 6 case6
  let case8 := sameWord p₁ p₂ 8 0
  let case9 := ifSame p₁ p₂ 8 case8
  let case10 := ifSame p₁ p₂ 9 case9
  let case11 := ifSame p₁ p₂ 10 case10
  let case12 := do
    let same ← sameWord p₁ p₂ 4 2
    if same then case8 else return false
  let case13 := ifSame p₁ p₂ 12 case12
  let case14 := ifSame p₁ p₂ 13 case13
  let case15 := ifSame p₁ p₂ 14 case14
  match rest with
  | 15 => case15
  | 14 => case14
  | 13 => case13
  | 12 => case12
  | 11 => case11
  | 10 => case10
  | 9 => case9
  | 8 => case8
  | 7 => case7
  | 6 => case6
  | 5 => case5
  | 4 => case4
  | 3 => case3
  | 2 => case2
  | 1 => case1
  | _ => case0

/-! ## The functions -/

/-- The loop over whole registers, with the switch behind it. -/
def memEqualRegisters (rest : ℕ) : ℕ → List UInt8 → List UInt8 → Option Bool
  | 0, p₁, p₂ => memEqualRest p₁ p₂ rest
  | blocks + 1, p₁, p₂ => do
    let a ← load 16 0 p₁
    let b ← load 16 0 p₂
    if ¬ testc (List.replicate 16 0) (xor a b) then return false
    else memEqualRegisters rest blocks (p₁.drop 16) (p₂.drop 16)

/-- **`mem_equal_optimized`.** -/
def memEqualOptimized (p₁ p₂ : List UInt8) : Option Bool :=
  if p₁.length ≠ p₂.length then some false
  else if p₁.length = 0 then some true
  else memEqualRegisters (p₁.length % 16) (p₁.length / 16) p₁ p₂

/-- `memcmp` of two strings of one size. -/
def memcmp : List UInt8 → List UInt8 → ℤ
  | a :: p₁, b :: p₂ => if a = b then memcmp p₁ p₂ else if a < b then -1 else 1
  | _, _ => 0

/-- **`mem_equal_memcpy`.** -/
def memEqualMemcpy (p₁ p₂ : List UInt8) : Bool := p₁.length == p₂.length && memcmp p₁ p₂ == 0

end Memequal

end CppEtudes
