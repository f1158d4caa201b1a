import CppEtudes.StringFunctions.Model.Column

/-!
# Upper and lower case of a column

The variants of `string_functions.hh` that convert the letters of every
row: row by row into a growing column (`upper_vector_old`,
`upper_vector_copy_3_times`, `upper_vector_copy_2_times`), into storage
already there (`upper_vector_copy_1_times`), and over the whole buffer at
once (`case_vector_new1`, `case_vector_new2`). All but the first have a
vector loop in front of the scalar one. `toupper` and `tolower` are those
of the C locale. A write outside of its buffer has no result.
-/

namespace CppEtudes

namespace StringFunctions

/-! ## Letters -/

def toupper (c : Byte) : Byte := if 0x61 ≤ c ∧ c ≤ 0x7A then c - 0x20 else c

def tolower (c : Byte) : Byte := if 0x41 ≤ c ∧ c ≤ 0x5A then c + 0x20 else c

/-- `C0 <= *p && *p <= C1 ? *p ^ 32 : *p`, of an unsigned byte. -/
def flipByte (c₀ c₁ b : Byte) : Byte := if c₀ ≤ b ∧ b ≤ c₁ then b ^^^ 32 else b

/-- The same of a `char`, which is signed. -/
def flipChar (c₀ c₁ b : Byte) : Byte :=
  if c₀.toInt8 ≤ b.toInt8 ∧ b.toInt8 ≤ c₁.toInt8 then b ^^^ 32 else b

/-- A lane of the vector loops: two comparisons of signed bytes select
the lanes to flip. -/
def flipLane (c₀ c₁ b : Byte) : Byte :=
  if (c₀ - 1).toInt8 < b.toInt8 ∧ b.toInt8 < (c₁ + 1).toInt8 then b ^^^ 32 else b

/-! ## The loops over a buffer -/

/-- A block written at position `q`. -/
def writeAt (buffer : List Byte) (q : ℕ) (block : List Byte) : Option (List Byte) :=
  if q + block.length ≤ buffer.length then
    some (buffer.take q ++ block ++ buffer.drop (q + block.length))
  else none

/-- The vector loop, `for (; p > sse2_end; p += 16, q += 16)`: it reads a
register of the text at `p` and writes it at `q`. Where the text is
converted in place a round reads nothing an earlier one wrote. -/
def sse2Loop (lane : Byte → Byte) (text : List Byte) (sse2End : ℕ) :
    ℕ → ℕ → ℕ → List Byte → Option (ℕ × ℕ × List Byte)
  | 0, p, q, buffer => some (p, q, buffer)
  | fuel + 1, p, q, buffer =>
    if sse2End < p then do
      let buffer ← writeAt buffer q (((text.drop p).take 16).map lane)
      sse2Loop lane text sse2End fuel (p + 16) (q + 16) buffer
    else some (p, q, buffer)

/-- The vector loop, and the scalar loop over what it leaves of the text.
Only the first moves `q`. -/
def convert (lane scalar : Byte → Byte) (text : List Byte) (q : ℕ) (buffer : List Byte) :
    Option (ℕ × List Byte) := do
  let (p, q, buffer) ← sse2Loop lane text (text.length / 16 * 16) text.length 0 q buffer
  let buffer ← writeAt buffer q ((text.drop p).map scalar)
  return (q, buffer)

/-- The text of a buffer converted in place. -/
def convertInPlace (lane scalar : Byte → Byte) (buffer : List Byte) : Option (List Byte) :=
  (convert lane scalar buffer 0 buffer).map Prod.snd

/-! ## Row by row -/

def upperOld (s : List Byte) : List Byte := s.map toupper

def lowerOld (s : List Byte) : List Byte := s.map tolower

def upperVectorOld (src dst : BinaryColumn) : Option BinaryColumn :=
  src.forSlices (fun s dst => some (dst.append (upperOld (src.read s)))) dst

def lowerVectorOld (src dst : BinaryColumn) : Option BinaryColumn :=
  src.forSlices (fun s dst => some (dst.append (lowerOld (src.read s)))) dst

def upperVectorCopy3Times (src dst : BinaryColumn) : Option BinaryColumn :=
  src.forSlices (fun s dst => do
    let result ← convertInPlace (flipLane 0x61 0x7A) toupper (src.read s)
    return dst.append result) dst

/-- `get_last_slice`. -/
def BinaryColumn.getLastSlice (c : BinaryColumn) : Option Slice :=
  c.getSlice? (Machine.wrap32 (c.size - 1))

/-- The last slice of a column converted in place. -/
def convertLastSlice (lane scalar : Byte → Byte) (c : BinaryColumn) : Option BinaryColumn := do
  let slice ← c.getLastSlice
  let result ← convertInPlace lane scalar (c.read slice)
  let bytes ← writeAt c.bytes slice.data result
  return ⟨bytes, c.offsets⟩

def upperVectorCopy2Times (src dst : BinaryColumn) : Option BinaryColumn :=
  src.forSlices (fun s dst =>
    convertLastSlice (flipLane 0x61 0x7A) (flipChar 0x61 0x7A) (dst.append (src.read s))) dst

/-- The body of the loop of `upper_vector_copy_1_times`: `q` goes from row
to row, and what is pushed to the offsets is the size of the row. -/
def upperCopy1Row (src : BinaryColumn) (slice : Slice) (s : BinaryColumn × ℕ) :
    Option (BinaryColumn × ℕ) := do
  let (q, bytes) ← convert (flipLane 0x61 0x7A) toupper (src.read slice) s.2 s.1.bytes
  return (⟨bytes, s.1.offsets ++ [slice.size % 4294967296]⟩, q)

def upperVectorCopy1Times (src dst : BinaryColumn) : Option BinaryColumn :=
  (src.forSlices (upperCopy1Row src) (dst, 0)).map Prod.fst

/-! ## The whole buffer -/

/-- `case_vector_new1<C0, C1>`. -/
def caseVectorNew1 (c₀ c₁ : Byte) (src _dst : BinaryColumn) : Option BinaryColumn := do
  let bytes ← convertInPlace (flipLane c₀ c₁) (flipByte c₀ c₁) src.bytes
  return ⟨bytes, src.offsets⟩

/-- `resize`: cut, or filled up with zeros. -/
def resize (bytes : List Byte) (size : ℕ) : List Byte :=
  bytes.take size ++ List.replicate (size - bytes.length) 0

/-- `case_vector_new2<use_raw, C0, C1>`. The raw buffer has whatever
content the memory had. -/
def caseVectorNew2 (useRaw : Bool) (fresh : ℕ → Byte) (c₀ c₁ : Byte) (src dst : BinaryColumn) :
    Option BinaryColumn := do
  let size := src.bytes.length
  let buffer := if useRaw then (List.range size).map fresh else resize dst.bytes size
  let (_, bytes) ← convert (flipLane c₀ c₁) (flipChar c₀ c₁) src.bytes 0 buffer
  return ⟨bytes, src.offsets⟩

def upperVectorNew1 : BinaryColumn → BinaryColumn → Option BinaryColumn := caseVectorNew1 0x61 0x7A

def lowerVectorNew1 : BinaryColumn → BinaryColumn → Option BinaryColumn := caseVectorNew1 0x41 0x5A

def upperVectorNew2 (useRaw : Bool) (fresh : ℕ → Byte) :
    BinaryColumn → BinaryColumn → Option BinaryColumn :=
  caseVectorNew2 useRaw fresh 0x61 0x7A

def lowerVectorNew2 (useRaw : Bool) (fresh : ℕ → Byte) :
    BinaryColumn → BinaryColumn → Option BinaryColumn :=
  caseVectorNew2 useRaw fresh 0x41 0x5A

end StringFunctions

end CppEtudes
