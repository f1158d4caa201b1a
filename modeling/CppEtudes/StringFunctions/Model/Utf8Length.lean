import CppEtudes.Common.Codes
import CppEtudes.StringFunctions.Model.Substr

/-!
# `utf8_length` and its variants

The functions of `string_functions.hh` that count the characters of a
string: three that hop from first byte to first byte, by the table, by a
table over the top five bits and by the leading ones; two that compare
the bytes a register at a time; and `utf8_length4`, which reads aligned
words of memory and shifts its way through them. Counters are `int`, and
leaving it has no result.
-/

namespace CppEtudes

namespace StringFunctions

open Machine

/-! ## From first byte to first byte -/

/-- `UTF8_BYTE_LENGTH_TABLE2`, as `create_utf8_length_table2` fills it. -/
def utf8ByteLengthTable2 : List ℕ :=
  (List.range 64).map fun byte =>
    if 0b11110 ≤ byte then 4 else if 0b11100 ≤ byte then 3 else if 0b11000 ≤ byte then 2 else 1

def tableSize2 (b : Byte) : ℕ := utf8ByteLengthTable2.getD (b >>> 3).toNat 1

/-- The length by the leading zeros of a complemented byte, as
`utf8_length3` and `utf8_length4` tell it. -/
def clzSize (c : ℕ) : Option ℕ :=
  (builtinClz c).map fun zeros =>
    if zeros = 28 then 4 else if zeros = 27 then 3 else if zeros = 26 then 2 else 1

/-- The loop of the three; `fuel` bounds the number of characters. -/
def utf8LengthFrom (size : Byte → Option ℕ) (str : List Byte) : ℕ → ℕ → ℕ → Option ℕ
  | 0, _, len => some len
  | fuel + 1, i, len =>
    if i < str.length then do
      let c ← size (str.getD i 0)
      let next ← intAdd i c
      utf8LengthFrom size str fuel next (len + 1)
    else some len

def utf8Length (str : List Byte) : Option ℕ :=
  utf8LengthFrom (fun b => some (tableSize b)) str str.length 0 0

def utf8Length2 (str : List Byte) : Option ℕ :=
  utf8LengthFrom (fun b => some (tableSize2 b)) str str.length 0 0

def utf8Length3 (str : List Byte) : Option ℕ :=
  utf8LengthFrom (fun b => clzSize (~~~b).toNat) str str.length 0 0

/-! ## A register at a time -/

/-- `int8_t(b) > int8_t(0xbf)`. -/
def aboveThreshold (b : Byte) : Bool := (0b10111111 : UInt8).toInt8 < b.toInt8

/-- `cmpgt_epi8` with the threshold in every lane. -/
def cmpgtThreshold (v : List Byte) : List Byte :=
  v.map fun b => if aboveThreshold b then 0xFF else 0

/-- The vector loop, over whole registers from position `p` on. -/
def countRegisters (lanes : ℕ) (str : List Byte) : ℕ → ℕ → ℕ → ℕ × ℕ
  | 0, p, len => (len, p)
  | fuel + 1, p, len =>
    if p < str.length / lanes * lanes then
      countRegisters lanes str fuel (p + lanes)
        (len + builtinPopcount (movemask (cmpgtThreshold ((str.drop p).take lanes))))
    else (len, p)

/-- The vector loop and the loop over the bytes behind it. The count only
grows, so that it stays an `int` is checked at the end. -/
def utf8LengthSimd (lanes : ℕ) (str : List Byte) : Option ℕ :=
  let (len, p) := countRegisters lanes str (str.length / lanes) 0 0
  intAdd 0 ((str.drop p).foldl (fun len b => len + (aboveThreshold b).toNat) len)

/-- `utf8_length_simd_avx2` takes the widest registers of the build. -/
def utf8LengthSimdAvx2 (simd : Simd) (str : List Byte) : Option ℕ :=
  utf8LengthSimd simd.lanes str

/-- `utf8_length_simd_sse2` stays with the narrower ones, which a build
with the wider has too. -/
def utf8LengthSimdSse2 (simd : Simd) (str : List Byte) : Option ℕ :=
  utf8LengthSimd (min simd.lanes Simd.sse2.lanes) str

/-! ## An aligned word at a time -/

/-- `*reinterpret_cast<uint64_t*>(p)`. -/
def loadWord (mem : ℕ → Byte) (p : ℕ) : ℕ :=
  ofLittleEndian ((List.range 8).map fun j => mem (p + j))

/-- The inner loop over the word `oct`: it shifts by `k` bytes, counts the
character it then sees and adds its length to `k`, up to the end of the
word. `k` is reduced to a position of the word first. -/
def countWord : ℕ → ℕ → ℕ → ℕ → Option (ℕ × ℕ)
  | 0, _, _, _ => none
  | fuel + 1, oct, k, len => do
    let oct ← shiftRight64 oct ((k % 8) <<< 3)
    let c ← clzSize ((oct ^^^ 0xff) % 256)
    let len ← intAdd len 1
    if k % 8 + c < 8 then countWord fuel oct (k % 8 + c) len else some (k % 8 + c, len)

/-- The loop over the words from `p` on, `n` of them; eight rounds are
enough for each. -/
def countWords (mem : ℕ → Byte) : ℕ → ℕ → ℕ → ℕ → Option (ℕ × ℕ)
  | 0, _, k, len => some (k, len)
  | n + 1, p, k, len => do
    let (k, len) ← countWord 8 (loadWord mem p) k len
    countWords mem n (p + 8) k len

/-- The loop over the last word, of which the string has the first
`limitEnd` bytes. Here `k` is not reduced. -/
def countLast (limitEnd : ℕ) : ℕ → ℕ → ℕ → ℕ → Option ℕ
  | 0, _, _, _ => none
  | fuel + 1, oct, k, len => do
    let oct ← shiftRight64 oct (k <<< 3)
    let c ← clzSize ((oct ^^^ 0xff) % 256)
    let len ← intAdd len 1
    if k + c < limitEnd then countLast limitEnd fuel oct (k + c) len else some len

/-- `utf8_length4`, of the `size` bytes at address `data`. -/
def utf8Length4 (mem : ℕ → Byte) (data size : ℕ) : Option ℕ := do
  let pStart := data / 8 * 8
  let pEnd := (data + size) / 8 * 8
  let limitEnd := (data + size) % 8
  let (k, len) ← countWords mem ((pEnd - pStart) / 8) pStart (data % 8) 0
  if limitEnd = 0 ∨ pStart = pEnd then return len
  else countLast limitEnd 8 (loadWord mem pEnd) k len

end StringFunctions

end CppEtudes
