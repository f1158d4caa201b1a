import CppEtudes.Common.Codes
import CppEtudes.StringFunctions.Model.Substr

/-!
# Hexadecimal digits

The functions of `hexdigit.hh`. A `char` is a byte, negative from `80`
on; `0xff` says that it is no digit. What the language leaves undefined
has no result: the leading zeros of zero, a negative shift and an `int`
that overflows; nor has a read of anything but a byte of the string, be
it its terminator.
-/

namespace CppEtudes

namespace Hexdigit

open Machine StringFunctions

/-- `static_cast<char>` of an `int`. -/
def toChar (x : ℤ) : Byte := UInt8.ofNat (x % 256).toNat

/-! ## One digit -/

/-- **`hexdigit_ord_nonsimd`.** -/
def hexdigitOrdNonsimd (ch : Byte) : Byte :=
  let value := ch.toInt8.toInt
  if value - 0x30 ≥ 0 ∧ value - 0x30 ≤ 9 then toChar (value - 0x30)
  else if value - 0x41 ≥ 0 ∧ value - 0x41 ≤ 5 then toChar (value - 0x41 + 10)
  else if value - 0x61 ≥ 0 ∧ value - 0x61 ≤ 5 then toChar (value - 0x61 + 10)
  else 0xff

/-- `t`: `-1` for a decimal digit, and `9` for a letter. -/
def ordBase (decimal : Bool) : ℤ := (10 &&& 0xff <<< (decimal.toNat <<< 3) : ℕ) - 1

/-- **`hexdigit_ord`.** -/
def hexdigitOrd (ch : Byte) : Option Byte := do
  let bs : List Byte := [0x00, 0x30 - 1, 0x39, 0x41 - 1, 0x46, 0x61 - 1, 0x66, 0x7f]
  let x := bs.map (· - ch)
  let clz ← builtinClz (movemask x)
  let bits : ℤ := 32 - clz
  let t := ordBase (bits == 0b10)
  if bits.toNat &&& 0b1001 ≠ 0 then return 0xff
  else if 0 ≤ bits - 1 then
    return toChar (t - (ofLittleEndian x >>> ((bits - 1).toNat <<< 3) &&& 0xff : ℕ))
  else none

/-! ## Four digits -/

/-- The lanes of a character, two of which are always negative. -/
def ordLanes (ch : Byte) : List Byte :=
  List.zipWith (· - ·) (littleEndian 8 0x66604640392f0000) [1, 1, ch, ch, ch, ch, ch, ch]

/-- `PROCESS_CH`: the value of the character in lane `i`, or nothing where
the function returns `false`. -/
def processCh (x : List Byte) (mask i : ℕ) : Option (Option ℤ) := do
  let clz ← builtinClz (mask &&& 0xff)
  let bits : ℤ := 30 - clz
  if bits % 2 = 0 then return none
  else
    let delta := ((x.drop (8 * i)).take 8).getD (bits + 1).toNat 0
    return some (ordBase (bits == 0b1) - delta.toInt8.toInt)

/-- **`hexdigit_ord4`**: both characters that it writes, or nothing where
it returns `false`. -/
def hexdigitOrd4 (ch₀ ch₁ ch₂ ch₃ : Byte) : Option (Option (Byte × Byte)) := do
  let x := ordLanes ch₀ ++ (ordLanes ch₁ ++ (ordLanes ch₂ ++ ordLanes ch₃))
  let mask := movemask x
  let some v₀ ← processCh x mask 0 | return none
  let some v₁ ← processCh x (mask >>> 8) 1 | return none
  let some v₂ ← processCh x (mask >>> 8 >>> 8) 2 | return none
  let some v₃ ← processCh x (mask >>> 8 >>> 8 >>> 8) 3 | return none
  return some (toChar (v₀ * 16) + toChar v₁, toChar (v₂ * 16) + toChar v₃)

/-! ## Strings -/

/-- The loop of `unhex0` and `unhex1`, with the function for a digit. -/
def unhexLoop (ord : Byte → Option Byte) (s : List Byte) : ℕ → ℕ → List Byte → Option (List Byte)
  | 0, _, _ => none
  | fuel + 1, i, ret =>
    if i < s.length then do
      let ch₀ ← ord (← s[i]?)
      if ch₀ &&& 0xff = 0xff then return []
      else
        let ch₁ ← ord (← s[i + 1]?)
        if ch₁ &&& 0xff = 0xff then return []
        else
          let next ← intAdd i 2
          unhexLoop ord s fuel next (ret ++ [(ch₀ <<< 4) + ch₁])
    else return ret

def unhexWith (ord : Byte → Option Byte) (s : List Byte) : Option (List Byte) :=
  if s.length % 2 = 1 then some [] else unhexLoop ord s (s.length + 1) 0 []

/-- **`unhex0`.** -/
def unhex0 : List Byte → Option (List Byte) := unhexWith fun ch => some (hexdigitOrdNonsimd ch)

/-- **`unhex1`.** -/
def unhex1 : List Byte → Option (List Byte) := unhexWith hexdigitOrd

/-- The loop of `unhex2` and what is behind it; `sz - 3` is a `size_t`. -/
def unhex2Loop (s : List Byte) : ℕ → ℕ → List Byte → Option (List Byte)
  | 0, _, _ => none
  | fuel + 1, i, ret =>
    if i < toSizeT (s.length - 3) then do
      let ch₀ ← s[i]?
      let ch₁ ← s[i + 1]?
      let ch₂ ← s[i + 2]?
      let ch₃ ← s[i + 3]?
      let some (ret₀, ret₁) ← hexdigitOrd4 ch₀ ch₁ ch₂ ch₃ | return []
      let next ← intAdd i 4
      unhex2Loop s fuel next (ret ++ [ret₀, ret₁])
    else if i = s.length then return ret
    else do
      let ch₀ ← s[i]?
      let ch₁ ← s[i + 1]?
      let some (ret₀, _) ← hexdigitOrd4 ch₀ ch₁ 0x30 0x30 | return []
      return ret ++ [ret₀]

/-- **`unhex2`.** -/
def unhex2 (s : List Byte) : Option (List Byte) :=
  if s.length % 2 = 1 then some [] else unhex2Loop s (s.length + 1) 0 []

end Hexdigit

end CppEtudes
