import CppEtudes.Common.Codes
import CppEtudes.Common.Heap
import CppEtudes.StringFunctions.Model.Substr

/-!
# Reversing a string

The functions of `reverse.hh`. The source is the text of a heap, from
`src_begin` to `src_end`, and the destination the result, of at least the
same size. The table of lengths is that of the string functions.
-/

namespace CppEtudes

namespace Reverse

open StringFunctions

/-! ## Bytes -/

/-- `_mm_shuffle_pi8` and `_mm_shuffle_epi8`: a lane is taken from the one
its control byte names, or zero where that has its high bit set. -/
def shuffle (lanes : ℕ) (ctrl bytes : List Byte) : List Byte :=
  ctrl.map fun c => if 128 ≤ c.toNat then 0 else bytes.getD (c.toNat % lanes) 0

/-- The control bytes of the 64-bit constant. -/
def ctrlMasks8 : List Byte := littleEndian 8 0x0001020304050607

/-- The control bytes of `_mm_set_epi64`, its second argument being the
lower half. -/
def ctrlMasks16 : List Byte :=
  littleEndian 8 0x08090a0b0c0d0e0f ++ littleEndian 8 0x0001020304050607

/-- A loop that goes up in the source and down in the destination,
`lanes` bytes at a time. -/
def reverseBlocks (lanes : ℕ) (f : List Byte → List Byte) : ℕ → Heap → ℕ → ℕ → Option Heap
  | 0, h, _, _ => some h
  | blocks + 1, h, p, q =>
    if lanes ≤ q then do
      let bytes ← h.load lanes (.text p)
      let h ← h.store (q - lanes) (f bytes)
      reverseBlocks lanes f blocks h (p + lanes) (q - lanes)
    else none

/-- Whole registers, and then single bytes. -/
def reverseRegisters (lanes : ℕ) (ctrl : List Byte) (h : Heap) : Option Heap := do
  let size := h.text.length
  let h ← reverseBlocks lanes (shuffle lanes ctrl) (size / lanes) h 0 size
  reverseBlocks 1 id (size % lanes) h (size / lanes * lanes) (size - size / lanes * lanes)

/-- **`ascii_reverse`.** -/
def asciiReverse (isEpi8 : Bool) (h : Heap) : Option Heap :=
  if isEpi8 then reverseRegisters 8 ctrlMasks8 h else reverseRegisters 16 ctrlMasks16 h

/-! ## Characters -/

/-- A `std::copy` of `size` bytes, from `src_begin + src` to
`dst_begin + dst`. -/
structure CharCopy where
  src : ℕ
  dst : ℤ
  size : ℕ
  deriving DecidableEq

/-- The copies of the loop, with `p` and `q` as they are before a round.
Every round goes on by at least one byte; `fuel` bounds their number. -/
def charCopies (src : List Byte) : ℕ → ℕ → ℤ → List CharCopy
  | 0, _, _ => []
  | fuel + 1, p, q =>
    match src[p]? with
    | none => []
    | some b =>
      ⟨p, q - tableSize b, tableSize b⟩ ::
        charCopies src fuel (p + tableSize b) (q - tableSize b)

/-- The copies of `utf8_reverse_per_slice`. -/
def reverseCopies (src : List Byte) : List CharCopy := charCopies src src.length 0 src.length

def CharCopy.run (h : Heap) (c : CharCopy) : Option Heap :=
  if 0 ≤ c.dst then do
    let bytes ← h.load c.size (.text c.src)
    h.store c.dst.toNat bytes
  else none

/-- **`utf8_reverse_per_slice`.** -/
def utf8ReversePerSlice (h : Heap) : Option Heap := (reverseCopies h.text).foldlM CharCopy.run h

end Reverse

end CppEtudes
