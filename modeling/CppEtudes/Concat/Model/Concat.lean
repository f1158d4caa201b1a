import CppEtudes.Common.Codes
import CppEtudes.Common.Writes
import CppEtudes.StringFunctions.Model.Column

/-!
# Vertical and horizontal concatenation

`concat_vertically` and `concat_horizontally` of `concat.hh` and what
they call of `BinaryColumn`. The buffer of the first is a log of the
`memcpy`s into it, each with the row it is for; a position is the
distance from `buffer.data()`. Sizes are `uint32_t`. An access outside of
a vector has no result; that buffer is the exception, since a write
behind its end is one of the log.
-/

namespace CppEtudes

/-- The buffer and the sizes of what is in its regions. -/
structure Concat.Slices where
  log : List (Write ℕ)
  sliceSizes : List ℕ
  deriving DecidableEq, Repr

namespace StringFunctions

namespace BinaryColumn

/-- `get_max_serialized_size`. -/
def getMaxSerializedSize (c : BinaryColumn) : Option ℕ :=
  (IntLoop.forEach (List.range c.size) (fun i maxSize => some (max maxSize (c.getSlice i).size))
    0).map fun maxSize => (maxSize + 4) % 4294967296

/-- **`serialize`**: the writes, and the number of their bytes. -/
def serialize (c : BinaryColumn) (idx pos : ℕ) : Option (List (Write ℕ) × ℕ) :=
  let s := c.getSlice idx
  if idx < c.size ∧ s.stop ≤ c.bytes.length then
    some ([⟨idx, pos, littleEndian 4 s.size⟩, ⟨idx, pos + 4, c.read s⟩], (4 + s.size) % 4294967296)
  else none

/-- The body of the loop of `serialize_batch`. -/
def serializeRow (c : BinaryColumn) (maxOneRowSize i : ℕ) (s : Concat.Slices) :
    Option Concat.Slices := do
  let sliceSize ← s.sliceSizes[i]?
  let (writes, size) ← c.serialize i (i * maxOneRowSize + sliceSize)
  return ⟨s.log ++ writes, s.sliceSizes.set i ((sliceSize + size) % 4294967296)⟩

/-- **`serialize_batch`.** -/
def serializeBatch (c : BinaryColumn) (chunkSize maxOneRowSize : ℕ) (s : Concat.Slices) :
    Option Concat.Slices :=
  (List.range chunkSize).foldlM (fun s i => c.serializeRow maxOneRowSize i s) s

end BinaryColumn

end StringFunctions

namespace Concat

open StringFunctions

/-- `get_max_serialize_size`. -/
def getMaxSerializeSize (keyColumns : List BinaryColumn) : Option ℕ :=
  keyColumns.foldlM
    (fun maxSize c => c.getMaxSerializedSize.map fun size => (maxSize + size) % 4294967296) 0

/-- The result of `concat_vertically`: the size of a region, the size of
the buffer, and what the regions hold. -/
structure Vertical extends Slices where
  maxOneRowSize : ℕ
  room : ℕ
  deriving DecidableEq, Repr

/-- **`concat_vertically`.** -/
def concatVertically (columns : List BinaryColumn) : Option Vertical := do
  let maxOneRowSize ← getMaxSerializeSize columns
  let s ← columns.foldlM
    (fun s c => do
      let first ← columns.head?
      c.serializeBatch first.size maxOneRowSize s) ⟨[], List.replicate 4096 0⟩
  return ⟨s, maxOneRowSize, 4096 * maxOneRowSize % 4294967296⟩

/-- `bytes.insert(bytes.end(), s.data, s.data + s.size)` with the slice of
row `i`. -/
def insertSlice (i : ℕ) (bytes : List Byte) (col : BinaryColumn) : Option (List Byte) :=
  if i < col.size ∧ (col.getSlice i).stop ≤ col.bytes.length then some (bytes ++ col.row i)
  else none

/-- The body of the loop over the rows: the slices of the row, then its
offset. The counter is an `int`. -/
def concatRow (columns : List BinaryColumn) (result : BinaryColumn) (i : ℕ) :
    Option BinaryColumn := do
  let bytes ← columns.foldlM (insertSlice i) result.bytes
  let _ ← Machine.intAdd i 1
  return ⟨bytes, result.offsets.set (i + 1) (bytes.length % 4294967296)⟩

/-- **`concat_horizontally`.** `make_room` replaces the offsets by as many
words as are asked for, with the content the memory has. -/
def concatHorizontally (fresh : ℕ → UInt32) (columns : List BinaryColumn) :
    Option BinaryColumn := do
  let first ← columns.head?
  (List.range first.size).foldlM (concatRow columns)
    ⟨[], (List.range (first.size + 1)).map fun k => (fresh k).toNat⟩

end Concat

end CppEtudes
