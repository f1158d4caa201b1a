import CppEtudes.StringFunctions.Model.Substr

/-!
# Trimming spaces

The functions of `trim.hh`, on a string from `begin` to `end`. Positions
count from `begin`; a pointer that goes down may end before it. A read
outside of the string has no result. The lines of `std::cout` are left
out.
-/

namespace CppEtudes

namespace Trim

open Machine StringFunctions

/-- `_mm_movemask_epi8(_mm_cmpeq_epi8(…, spaces))` of the register at
`p`. -/
def spaceMasks (s : List Byte) (p : ℕ) : Option ℕ :=
  if p + 16 ≤ s.length then
    some (movemask (((s.drop p).take 16).map fun b => if b = 0x20 then 0xFF else 0))
  else none

/-! ## At the beginning -/

/-- The scalar loop. -/
def skipLeadingBytes (s : List Byte) : ℕ → ℕ → Option ℕ
  | 0, _ => none
  | fuel + 1, p => if s[p]? = some 0x20 then skipLeadingBytes s fuel (p + 1) else some p

/-- The vector loop, with the scalar one behind it. -/
def skipLeadingRegisters (s : List Byte) (sse2End : ℕ) : ℕ → ℕ → Option ℕ
  | 0, _ => none
  | fuel + 1, p =>
    if p < sse2End then do
      let masks ← spaceMasks s p
      let pos ← builtinCtz (65536 ||| complement32 masks)
      if pos < 16 then return p + pos else skipLeadingRegisters s sse2End fuel (p + 16)
    else skipLeadingBytes s (s.length + 1) p

/-- **`skip_leading_spaces`.** -/
def skipLeadingSpaces (simdOptimization : Bool) (s : List Byte) : Option ℕ :=
  if simdOptimization then skipLeadingRegisters s (s.length / 16 * 16) (s.length + 1) 0
  else skipLeadingBytes s (s.length + 1) 0

/-! ## At the end -/

/-- The scalar loop, behind its `--p`. -/
def skipTrailingBytes (s : List Byte) : ℕ → ℤ → Option ℤ
  | 0, _ => none
  | fuel + 1, p =>
    if 0 ≤ p ∧ s[p.toNat]? = some 0x20 then skipTrailingBytes s fuel (p - 1) else some (p + 1)

/-- The vector loop, with the scalar one behind it. -/
def skipTrailingRegisters (s : List Byte) (sse2Begin : ℤ) : ℕ → ℤ → Option ℤ
  | 0, _ => none
  | fuel + 1, p =>
    if sse2Begin ≤ p then do
      let masks ← spaceMasks s p.toNat
      let pos ← builtinClz (complement32 (masks <<< 16 % 4294967296))
      if pos < 16 then return p + 16 - pos else skipTrailingRegisters s sse2Begin fuel (p - 16)
    else skipTrailingBytes s (s.length + 1) (p + 16 - 1)

/-- **`skip_trailing_spaces`.** -/
def skipTrailingSpaces (simdOptimization : Bool) (s : List Byte) : Option ℤ :=
  if simdOptimization then
    skipTrailingRegisters s (s.length - s.length / 16 * 16) (s.length + 1) (s.length - 16)
  else skipTrailingBytes s (s.length + 1) (s.length - 1)

end Trim

end CppEtudes
