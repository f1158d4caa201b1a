import CppEtudes.StringFunctions.Model.Column

/-!
# `StringFunctions::substr`

The UTF-8 decoders, the ASCII check and the kernels of
`string_functions.hh` behind `substr`. Template parameters are Boolean
arguments. A kernel is a loop over the rows whose body decides, for one
slice, the piece it appends; bodies that count the leading zeros of a
zero word have no piece. Signed arithmetic wraps, as the overflow check
of `ascii_substr` presumes.
-/

namespace CppEtudes

namespace StringFunctions

open Machine

/-! ## Decoders -/

/-- `UTF8_BYTE_LENGTH_TABLE`: the length a first byte announces; a
continuation byte and an invalid one count for one. -/
def utf8ByteLengthTable : List ℕ :=
  List.replicate 128 1 ++ List.replicate 64 1 ++ List.replicate 32 2 ++ List.replicate 16 3 ++
    (List.replicate 8 4 ++ List.replicate 8 1)

def tableSize (b : Byte) : ℕ := utf8ByteLengthTable.getD b.toNat 1

/-- The length a byte announces, by the table or by its leading ones. -/
def charSize (lookupTable : Bool) (b : Byte) : Option ℕ :=
  if lookupTable then some (tableSize b)
  else if (~~~b) >>> 7 = 1 then some 1
  else (builtinClz (~~~b).toNat).map (· - 24)

/-- `int8_t(*p) <= int8_t(0xBF)`: a continuation byte. -/
def isContinuation (b : Byte) : Bool := 128 ≤ b.toNat && b.toNat ≤ 191

/-- `skip_leading_utf8(p, end, n)`. -/
def skipLeadingUtf8 (lookupTable : Bool) (bytes : List Byte) (stop : ℕ) : ℕ → ℕ → Option ℕ
  | 0, p => some p
  | n + 1, p =>
    if p < stop then do
      let c ← charSize lookupTable (bytes.getD p 0)
      skipLeadingUtf8 lookupTable bytes stop n (p + c)
    else some p

/-- The inner loop of `skip_trailing_utf8`, over `k = p - begin + 1`. -/
def skipContinuation (bytes : List Byte) (start : ℕ) : ℕ → ℕ
  | 0 => 0
  | k + 1 =>
    if isContinuation (bytes.getD (start + k) 0) then skipContinuation bytes start k else k + 1

/-- The outer loop, over the same `k`: it stops at `k = 0`, where `p` is
one before `begin`. -/
def skipTrailing (bytes : List Byte) (start : ℕ) : ℕ → ℕ → ℕ
  | 0, k => k
  | _ + 1, 0 => 0
  | n + 1, k + 1 => skipTrailing bytes start n (skipContinuation bytes start k)

/-- `skip_trailing_utf8(end, begin, n)`. -/
def skipTrailingUtf8 (bytes : List Byte) (s : Slice) (n : ℕ) : ℤ :=
  (s.data : ℤ) + skipTrailing bytes s.data n (s.size + 1) - 1

/-- `get_utf8_small_index`: the positions the characters of a slice start
at, `uint8_t` each. `fuel` bounds their number. -/
def utf8SmallIndexFrom (bytes : List Byte) (s : Slice) : ℕ → ℕ → List ℕ
  | 0, _ => []
  | fuel + 1, i =>
    if i < s.size then
      i :: utf8SmallIndexFrom bytes s fuel ((i + tableSize (bytes.getD (s.data + i) 0)) % 256)
    else []

def getUtf8SmallIndex (bytes : List Byte) (s : Slice) : List ℕ :=
  utf8SmallIndexFrom bytes s s.size 0

/-! ## The ASCII check -/

/-- What `validate_ascii_fast` is compiled for. -/
inductive Simd where
  | avx2
  | sse2
  | scalar
  deriving DecidableEq, Repr

/-- The lanes of a vector register; the scalar build has none. -/
def Simd.lanes : Simd → ℕ
  | .avx2 => 32
  | .sse2 => 16
  | .scalar => 0

/-- The top bit of every lane. -/
def movemask (v : List Byte) : ℕ := v.foldr (fun (b : Byte) m => 2 * m + (b >>> 7).toNat) 0

/-- The vector loop: whole registers from position `i` on are ored into
`acc`. -/
def orRegisters (lanes : ℕ) (src : List Byte) : ℕ → ℕ → List Byte → List Byte × ℕ
  | 0, i, acc => (acc, i)
  | fuel + 1, i, acc =>
    if i + lanes ≤ src.length then
      orRegisters lanes src fuel (i + lanes)
        (List.zipWith (· ||| ·) acc ((src.drop i).take lanes))
    else (acc, i)

def validateAsciiFast (simd : Simd) (src : List Byte) : Bool :=
  let (hasError, i) := orRegisters simd.lanes src (src.length / simd.lanes) 0
    (List.replicate simd.lanes 0)
  let tailHasError := (src.drop i).foldl (· ||| ·) 0
  movemask hasError ||| (tailHasError &&& 0x80).toNat == 0

/-! ## Kernels -/

/-- The body of `ascii_substr`. -/
def asciiSubstrRow (negativeOffset : Bool) (offset len : ℤ) (s : Slice) : Piece :=
  if s.size = 0 then .empty
  else
    let fromPos := if negativeOffset then wrap32 (offset + s.size) else offset
    if (if negativeOffset then fromPos < 0 else s.size < toSizeT fromPos) then .empty
    else
      let toPos := wrap32 (fromPos + len)
      let toPos := if toPos < fromPos ∨ s.size < toSizeT toPos then wrap32 s.size else toPos
      .range (s.data + fromPos) (s.data + toPos)

def asciiSubstr (negativeOffset : Bool) (src dst : BinaryColumn) (offset len : ℤ) :
    Option BinaryColumn :=
  src.forRows (fun s => some (asciiSubstrRow negativeOffset offset len s)) dst

/-- The body of `utf8_substr_from_left`. -/
def utf8SubstrFromLeftRow (useLength lookupTable : Bool) (bytes : List Byte) (offset len : ℤ)
    (s : Slice) : Option Piece := do
  let fromPtr ← skipLeadingUtf8 lookupTable bytes s.stop (toSizeT offset) s.data
  if useLength then
    if s.stop ≤ fromPtr then return .empty
    else
      let toPtr ← skipLeadingUtf8 lookupTable bytes s.stop (toSizeT len) fromPtr
      return .range fromPtr toPtr
  else return .range fromPtr s.stop

def utf8SubstrFromLeft (useLength lookupTable : Bool) (src dst : BinaryColumn)
    (offset len : ℤ) : Option BinaryColumn :=
  src.forRows (utf8SubstrFromLeftRow useLength lookupTable src.bytes offset len) dst

/-- `SMALL_INDEX_MAX`. -/
def smallIndexMax : ℕ := 32

/-- The body of `utf8_substr_from_right`. -/
def utf8SubstrFromRightRow (useLength lookupTable : Bool) (bytes : List Byte) (offset len : ℤ)
    (s : Slice) : Option Piece :=
  if s.size < toSizeT offset then some .empty
  else if s.size ≤ smallIndexMax then
    let smallIndex := getUtf8SmallIndex bytes s
    if smallIndex.length < toSizeT offset then some .empty
    else
      let fromIdx := smallIndex.length - toSizeT offset
      let fromPtr := s.data + smallIndex.getD fromIdx 0
      let toPtr :=
        if useLength && len < offset then s.data + smallIndex.getD (fromIdx + toSizeT len) 0
        else s.stop
      some (.range fromPtr toPtr)
  else
    let fromPtr := skipTrailingUtf8 bytes s (toSizeT offset)
    if fromPtr < s.data then some .empty
    else if useLength then
      if (s.stop : ℤ) - fromPtr < len then some (.range fromPtr s.stop)
      else do
        let toPtr ← skipLeadingUtf8 lookupTable bytes s.stop (toSizeT len) fromPtr.toNat
        return .range fromPtr toPtr
    else some (.range fromPtr s.stop)

def utf8SubstrFromRight (useLength lookupTable : Bool) (src dst : BinaryColumn)
    (offset len : ℤ) : Option BinaryColumn :=
  src.forRows (utf8SubstrFromRightRow useLength lookupTable src.bytes offset len) dst

/-! ## The dispatcher -/

/-- `substr<false, use_length, lookup_table>`. -/
def substrUtf8 (useLength lookupTable : Bool) (src dst : BinaryColumn) (offset len : ℤ) :
    Option BinaryColumn :=
  if offset = 0 then some dst
  else if 0 < offset then utf8SubstrFromLeft useLength lookupTable src dst (offset - 1) len
  else utf8SubstrFromRight useLength lookupTable src dst (wrap32 (-offset)) len

/-- `substr<check_ascii, use_length, lookup_table>`. -/
def substr (simd : Simd) (checkAscii useLength lookupTable : Bool) (src dst : BinaryColumn)
    (offset len : ℤ) : Option BinaryColumn :=
  if offset = 0 then some dst
  else if checkAscii then
    if validateAsciiFast simd src.bytes then
      if 0 < offset then asciiSubstr false src dst (offset - 1) len
      else asciiSubstr true src dst offset len
    else substrUtf8 useLength lookupTable src dst offset len
  else substrUtf8 useLength lookupTable src dst offset len

/-- The body of the kernel `substr` dispatches to, for a non-zero offset. -/
def substrBody (simd : Simd) (checkAscii useLength lookupTable : Bool) (src : BinaryColumn)
    (offset len : ℤ) : Slice → Option Piece :=
  if checkAscii && validateAsciiFast simd src.bytes then
    if 0 < offset then fun s => some (asciiSubstrRow false (offset - 1) len s)
    else fun s => some (asciiSubstrRow true offset len s)
  else if 0 < offset then utf8SubstrFromLeftRow useLength lookupTable src.bytes (offset - 1) len
  else utf8SubstrFromRightRow useLength lookupTable src.bytes (wrap32 (-offset)) len

end StringFunctions

end CppEtudes
