import CppEtudes.Common.IntLoop
import Mathlib.Data.List.Basic
import Mathlib.Data.List.Infix
import Mathlib.Tactic.Common

/-!
# Binary columns

`BinaryColumn` of `binary_column.hh`: the rows of a column back to back
in one byte buffer, and the offset each row starts at. Offsets are
`uint32_t`, so `append` reduces them modulo `2^32`; `OffsetsOk` is the
invariant every reader of a column relies on. A pointer into the buffer
is a position in it, and copying a range the buffer does not hold has no
result. The index of a row is an `int`, and so is that of the offset
behind it: no loop over the rows gets to row `2^31 - 1`.
-/

namespace CppEtudes

namespace StringFunctions

/-- A byte of a column. -/
abbrev Byte := UInt8

/-- The bytes of a column and the offsets of its rows. -/
structure BinaryColumn where
  bytes : List Byte
  offsets : List ℕ
  deriving DecidableEq, Repr

/-- A row of the buffer: where it begins and how many bytes it has. -/
structure Slice where
  data : ℕ
  size : ℕ
  deriving DecidableEq, Repr

/-- One past the last position of a slice. -/
def Slice.stop (s : Slice) : ℕ := s.data + s.size

namespace BinaryColumn

/-- The column the constructor makes. -/
def new : BinaryColumn := ⟨[], [0]⟩

def size (c : BinaryColumn) : ℕ := c.offsets.length - 1

/-- `append(std::string const&)`. -/
def append (c : BinaryColumn) (s : List Byte) : BinaryColumn :=
  ⟨c.bytes ++ s, c.offsets ++ [(c.offsets.getLast?.getD 0 + s.length) % 4294967296]⟩

/-- The slice of row `i`. The offset subtraction is one of `uint32_t`. -/
def getSlice (c : BinaryColumn) (i : ℕ) : Slice :=
  ⟨c.offsets.getD i 0,
    (c.offsets.getD (i + 1) 0 + 4294967296 - c.offsets.getD i 0) % 4294967296⟩

/-- `get_slice(i)` as it is called: `i` and `i + 1` are `int`s, and a
negative one is the index of no offset. -/
def getSlice? (c : BinaryColumn) (i : ℤ) : Option Slice :=
  if 0 ≤ i ∧ i + 1 < 2147483648 then some (c.getSlice i.toNat) else none

/-- The bytes a slice points to. -/
def read (c : BinaryColumn) (s : Slice) : List Byte := (c.bytes.drop s.data).take s.size

/-- The `i`-th row, as `get_slice(i).to_string()` gives it. -/
def row (c : BinaryColumn) (i : ℕ) : List Byte := c.read (c.getSlice i)

/-- Every row, as `to_vector` gives them where an `int` counts them. -/
def toVector (c : BinaryColumn) : List (List Byte) := (List.range c.size).map c.row

/-- **The offsets invariant.** The offsets start at `0`, never descend,
and end at the number of bytes, which a `uint32_t` holds. -/
structure OffsetsOk (c : BinaryColumn) : Prop where
  head : c.offsets.head? = some 0
  sorted : c.offsets.Pairwise (· ≤ ·)
  last : c.offsets.getLast? = some c.bytes.length
  bound : c.bytes.length < 4294967296

/-- The column whose rows are the given ones. -/
def ofRows (rows : List (List Byte)) : BinaryColumn := rows.foldl append new

end BinaryColumn

/-! ## What a kernel hands to `append` -/

/-- The argument of one `dst.append` call of a kernel: the literal `""`,
or a range of source pointers. -/
inductive Piece where
  | empty
  | range (first last : ℤ)
  deriving DecidableEq, Repr

/-- The piece lies inside the slice. -/
def Piece.Within (s : Slice) : Piece → Prop
  | .empty => True
  | .range first last => (s.data : ℤ) ≤ first ∧ first ≤ last ∧ last ≤ (s.stop : ℤ)

/-- The buffer holds the piece. -/
def Piece.Held (bytes : List Byte) : Piece → Prop
  | .empty => True
  | .range first last => 0 ≤ first ∧ first ≤ last ∧ last ≤ (bytes.length : ℤ)

instance (s : Slice) : (p : Piece) → Decidable (p.Within s)
  | .empty => inferInstanceAs (Decidable True)
  | .range _ _ => inferInstanceAs (Decidable (_ ∧ _ ∧ _))

instance (bytes : List Byte) : (p : Piece) → Decidable (p.Held bytes)
  | .empty => inferInstanceAs (Decidable True)
  | .range _ _ => inferInstanceAs (Decidable (_ ∧ _ ∧ _))

/-- The bytes of a piece. -/
def Piece.value (bytes : List Byte) : Piece → List Byte
  | .empty => []
  | .range first last => (bytes.drop first.toNat).take (last - first).toNat

namespace BinaryColumn

/-- `append(const char* begin, const char* end)`, and `append("")`. A
range that descends or leaves the source buffer has no result. -/
def appendPiece (src : List Byte) (dst : BinaryColumn) (p : Piece) : Option BinaryColumn :=
  if p.Held src then some (dst.append (p.value src)) else none

/-- `for (auto i = 0; i < n; ++i)` over the rows of a column, each round
with its `get_slice(i)`. -/
def forSlices {σ : Type} (src : BinaryColumn) (step : Slice → σ → Option σ) (s : σ) : Option σ :=
  IntLoop.forEach (List.range src.size) (fun i s => do step (← src.getSlice? i) s) s

/-- The same loop with a `size_t` counter, which `get_slice` takes as an
`int`. -/
def forSlicesSizeT {σ : Type} (src : BinaryColumn) (step : Slice → σ → Option σ) (s : σ) :
    Option σ :=
  (List.range src.size).foldlM
    (fun s (i : ℕ) => do step (← src.getSlice? (Machine.wrap32 i)) s) s

/-- A round of the loop of a kernel: the body decides the piece and the
destination takes it. -/
def appendBody (src : BinaryColumn) (body : Slice → Option Piece) (s : Slice)
    (dst : BinaryColumn) : Option BinaryColumn := do
  appendPiece src.bytes dst (← body s)

/-- The loop of a kernel. -/
def forRows (src : BinaryColumn) (body : Slice → Option Piece) (dst : BinaryColumn) :
    Option BinaryColumn :=
  src.forSlices (src.appendBody body) dst

/-- The loop of a kernel that counts in a `size_t`. -/
def forRowsSizeT (src : BinaryColumn) (body : Slice → Option Piece) (dst : BinaryColumn) :
    Option BinaryColumn :=
  src.forSlicesSizeT (src.appendBody body) dst

/-- The destination after one `append` for each of the values. -/
def appendAll (dst : BinaryColumn) (values : List (List Byte)) : BinaryColumn :=
  values.foldl append dst

end BinaryColumn

end StringFunctions

end CppEtudes
