import CppEtudes.StringFunctions.Model.Substr

/-!
# `substr_old` and `substr_new`

The two earlier versions of `substr` in `string_functions.hh`, which
index the characters of a row before they cut it. They differ in the
decoder of the index and in what they do with a column of ASCII text;
the loop over the other columns, which counts the rows in a `size_t`, is
the same text in both. Neither reads its `use_length`.
-/

namespace CppEtudes

namespace StringFunctions

open Machine

/-! ## The index -/

/-- The loop of `get_utf8_index` and `get_utf8_index2`: the positions the
characters of a slice start at, by the table or by the leading ones. The
counter is an `int`; `fuel` bounds the number of characters. -/
def utf8IndexFrom (lookupTable : Bool) (bytes : List Byte) (s : Slice) :
    ℕ → ℕ → Option (List ℕ)
  | 0, _ => some []
  | fuel + 1, i =>
    if i < s.size then do
      let c ← charSize lookupTable (bytes.getD (s.data + i) 0)
      let next ← intAdd i c
      let index ← utf8IndexFrom lookupTable bytes s fuel next
      return i :: index
    else some []

def getUtf8Index (bytes : List Byte) (s : Slice) : Option (List ℕ) :=
  utf8IndexFrom true bytes s s.size 0

def getUtf8Index2 (bytes : List Byte) (s : Slice) : Option (List ℕ) :=
  utf8IndexFrom false bytes s s.size 0

/-- The range of `len` characters from the character `pos` on. -/
def cutByIndex (index : List ℕ) (pos len : ℤ) (s : Slice) : Piece :=
  if index.length ≤ toSizeT pos ∨ pos < 0 then .empty
  else
    let bytePos := wrap32 (index.getD (toSizeT pos) 0)
    let resultLength :=
      if toSizeT (wrap32 (pos + len)) < index.length then
        wrap32 (index.getD (toSizeT (wrap32 (pos + len))) 0 - bytePos)
      else wrap32 (s.size - bytePos)
    .range (s.data + bytePos) (s.data + bytePos + resultLength)

/-- The body of the loop over a column that is not ASCII, after the
offset has been counted from zero. -/
def indexSubstrRow (getIndex : Slice → Option (List ℕ)) (negativeOffset : Bool)
    (offset len : ℤ) (s : Slice) : Option Piece :=
  if s.size = 0 then some .empty
  else do
    let index ← getIndex s
    let pos := if negativeOffset && offset < 0 then wrap32 (offset + index.length) else offset
    return cutByIndex index pos len s

/-! ## The two versions -/

/-- The body of the loop of `substr_old` over ASCII text. The offset is
compared as a `size_t`. -/
def substrOldAsciiRow (offset len : ℤ) (s : Slice) : Piece :=
  if s.size = 0 ∨ s.size < toSizeT offset then .empty
  else
    let bytePos := wrap32 (offset - 1)
    let resultLength :=
      if s.size < toSizeT (wrap32 (offset + len)) then wrap32 (s.size - bytePos) else len
    .range (s.data + bytePos) (s.data + bytePos + resultLength)

/-- `substr_old<negative_offset>`. -/
def substrOld (simd : Simd) (negativeOffset : Bool) (src dst : BinaryColumn) (offset len : ℤ) :
    Option BinaryColumn :=
  if validateAsciiFast simd src.bytes then
    src.forRows (fun s => some (substrOldAsciiRow offset len s)) dst
  else
    src.forRowsSizeT (indexSubstrRow (getUtf8Index src.bytes) negativeOffset
      (if 0 < offset then offset - 1 else offset) len) dst

/-- `substr_new<negative_offset>`: on ASCII text it calls the kernel for
negative offsets, with the offset as it is. -/
def substrNew (simd : Simd) (negativeOffset : Bool) (src dst : BinaryColumn) (offset len : ℤ) :
    Option BinaryColumn :=
  if validateAsciiFast simd src.bytes then asciiSubstr true src dst offset len
  else
    src.forRowsSizeT (indexSubstrRow (getUtf8Index2 src.bytes) negativeOffset
      (if 0 < offset then offset - 1 else offset) len) dst

end StringFunctions

end CppEtudes
