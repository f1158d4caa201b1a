import CppEtudes.Common.Doubling
import CppEtudes.Common.Heap
import CppEtudes.StringFunctions.Model.Column

/-!
# Repeating a string

The functions of `repeat.hh`. The string that is repeated and the memory
its copies go to are the two objects of a heap. `memcpy_fast` is a
`memcpy`.
-/

namespace CppEtudes

namespace Repeat

open Machine StringFunctions

/-! ## Copies -/

/-- What copies `size` bytes to `dst`. -/
abbrev Copy := Heap → (dst : ℕ) → (src : Ptr) → (size : ℕ) → Option Heap

def memcpy : Copy := fun h dst src size => h.copy dst src size

/-- `memcpy_inlined`: every case is a copy of its own constant size. -/
def memcpyInlined : Copy := fun h dst src size =>
  match size with
  | 1 => memcpy h dst src 1
  | 2 => memcpy h dst src 2
  | 3 => memcpy h dst src 3
  | 4 => memcpy h dst src 4
  | 5 => memcpy h dst src 5
  | 6 => memcpy h dst src 6
  | 7 => memcpy h dst src 7
  | 8 => memcpy h dst src 8
  | 9 => memcpy h dst src 9
  | 10 => memcpy h dst src 10
  | 11 => memcpy h dst src 11
  | 12 => memcpy h dst src 12
  | 13 => memcpy h dst src 13
  | 14 => memcpy h dst src 14
  | 15 => memcpy h dst src 15
  | 16 => memcpy h dst src 16
  | size => memcpy h dst src size

/-- A loop of loads and stores, `lanes` bytes at a time. -/
def copyBlocks (lanes : ℕ) : ℕ → Heap → ℕ → Ptr → Option Heap
  | 0, h, _, _ => some h
  | blocks + 1, h, dst, src => do
    let bytes ← h.load lanes src
    let h ← h.store dst bytes
    copyBlocks lanes blocks h (dst + lanes) (src.add lanes)

/-- Whole registers, and another copy for what is left. -/
def copyRegisters (rest : Copy) : Copy := fun h dst src size => do
  let h ← copyBlocks 16 (size / 16) h dst src
  rest h (dst + size / 16 * 16) (src.add (size / 16 * 16)) (size % 16)

/-- `simd_memcpy_inline_memcpy_rest`. -/
def simdMemcpyInlineMemcpyRest : Copy := copyRegisters memcpy

/-- `simd_memcpy_inline_gutil_memcpy_rest`. -/
def simdMemcpyInlineGutilMemcpyRest : Copy := copyRegisters memcpyInlined

/-! ## The template -/

/-- **`fast_repeat`** with its two functions. -/
def fastRepeat {σ : Type} (initFunc deltaFunc : ℕ → σ → Option σ) (num : ℕ) (args : σ) :
    Option σ := do
  let args ← initFunc 1 args
  Doubling.run (fun k lastBit args => do
    let n ← intShl (k + lastBit)
    deltaFunc n args) num args

/-- `count_n`. -/
def countN (num : ℕ) : Option ℕ :=
  fastRepeat (fun i _ => some i) (fun n m => intAdd m n) num 0

/-! ## Strings -/

/-- One round of the loops below: the beginning is copied once or twice
behind what is there. -/
def copyRound (copy : Copy) (size : ℕ) (len : ℕ → Option ℕ) (k lastBit : ℕ) (s : Heap × ℕ) :
    Option (Heap × ℕ) := do
  let shifted ← intShl k
  let len ← len (size * shifted)
  let h ← copy s.1 s.2 (.result 0) len
  if lastBit ≠ 0 then
    let h ← copy h (s.2 + len) (.result 0) len
    return (h, s.2 + len + len)
  else return (h, s.2 + len)

/-- `repeat_string_logn_…`: the string that is returned has every byte
written. -/
def repeatStringLognWith (copy : Copy) (s : List Byte) (n : ℕ) : Option (List Byte) := do
  let room : Heap := ⟨s, List.replicate (s.length * n) none⟩
  let h ← copy room 0 (.text 0) s.length
  let (h, _) ← Doubling.run (copyRound copy s.length int32Size) n (h, s.length)
  h.result.mapM id

def repeatStringLognMemcpy : List Byte → ℕ → Option (List Byte) := repeatStringLognWith memcpy

def repeatStringLognGutilMemcpyInline : List Byte → ℕ → Option (List Byte) :=
  repeatStringLognWith memcpyInlined

def repeatStringLognSimdMemcpyInline1 : List Byte → ℕ → Option (List Byte) :=
  repeatStringLognWith simdMemcpyInlineGutilMemcpyRest

def repeatStringLognSimdMemcpyInline2 : List Byte → ℕ → Option (List Byte) :=
  repeatStringLognWith simdMemcpyInlineMemcpyRest

/-- `result.insert(result.end(), result.data(), result.data() + len)`. -/
def insertBeginning (result : List Byte) (len : ℕ) : Option (List Byte) :=
  if len ≤ result.length then some (result ++ result.take len) else none

/-- One round of `repeat_string_logn`. -/
def insertRound (size k lastBit : ℕ) (result : List Byte) : Option (List Byte) := do
  let shifted ← intShl k
  let len ← int32Size (size * shifted)
  let result ← insertBeginning result len
  if lastBit ≠ 0 then insertBeginning result len else return result

/-- **`repeat_string_logn`.** It begins with `result.resize(s_size * n)`. -/
def repeatStringLogn (s : List Byte) (n : ℕ) : Option (List Byte) :=
  Doubling.run (insertRound s.length) n (List.replicate (s.length * n) 0 ++ s)

/-- `repeat_string_n`. -/
def repeatStringN (s : List Byte) (n : ℕ) : List Byte :=
  (List.range n).foldl (fun result _ => result ++ s) []

/-! ## Pointers -/

/-- `size -= 1` of a `UInt64`. -/
def decrement (size : ℕ) : ℕ := (size + 18446744073709551615) % 18446744073709551616

/-- The `fast_repeat` of pointers, from `src` to `dst`, with the zero byte
behind the copies. -/
def fastRepeatBytes (h : Heap) (size repeatTime : ℕ) : Option Heap :=
  if repeatTime = 0 then h.store 0 [0]
  else do
    let size := decrement size
    let h ← memcpy h 0 (.text 0) size
    let (h, dst) ← Doubling.run
      (copyRound memcpy size fun x => some (x % 18446744073709551616)) repeatTime (h, size)
    h.store dst [0]

/-- `original_repeat`. -/
def originalRepeat (h : Heap) (size repeatTime : ℕ) : Option Heap := do
  let (h, dst) ← (List.range repeatTime).foldlM (fun (s : Heap × ℕ) _ => do
    let h ← memcpy s.1 s.2 (.text 0) (decrement size)
    return (h, s.2 + decrement size)) (h, 0)
  h.store dst [0]

end Repeat

end CppEtudes
