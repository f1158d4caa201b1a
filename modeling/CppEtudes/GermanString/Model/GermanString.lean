import Mathlib.Algebra.Ring.Nat
import Mathlib.Data.Fin.Basic

/-!
# German strings

`GermanString`: sixteen bytes with a length and either the whole string
or its first four bytes and a pointer to the others. The object is its
length and the twelve bytes behind it, which `short_rep.str` and
`long_rep` share; the first four are `long_rep.prefix` and the last eight
`long_rep.ptr`, lowest byte first. A `const char*` is what it points to,
by offset.

A constructor runs over memory that holds what was there before.
-/

namespace CppEtudes

namespace GermanString

/-- The bytes behind a pointer. -/
abbrev Chars := ℕ → UInt8

/-- The bytes outside of the objects, by address. -/
abbrev Heap := ℕ → UInt8

/-- `memcpy(remaining, …)`. -/
def Heap.memcpy (heap : Heap) (addr : ℕ) (bytes : List UInt8) : Heap := fun i =>
  if addr ≤ i then bytes.getD (i - addr) (heap i) else heap i

/-- `reinterpret_cast<const char*>(ptr)`. -/
def Heap.chars (heap : Heap) (addr : ℕ) : Chars := fun i => heap (addr + i)

/-! ## Comparing bytes -/

/-- `memcmp`, of which only the sign is used. -/
def memcmp (p₁ p₂ : Chars) : ℕ → ℤ
  | 0 => 0
  | n + 1 =>
    if p₁ 0 = p₂ 0 then memcmp (fun i => p₁ (i + 1)) (fun i => p₂ (i + 1)) n
    else if p₁ 0 < p₂ 0 then -1 else 1

/-- `memcompare`. -/
def memcompare (p₁ : Chars) (size₁ : ℕ) (p₂ : Chars) (size₂ : ℕ) : ℤ :=
  let res := memcmp p₁ p₂ (min size₁ size₂)
  if res ≠ 0 then if 0 < res then 1 else -1
  else if size₁ < size₂ then -1 else if size₂ < size₁ then 1 else 0

end GermanString

/-- `INLINE_MAX_LENGTH`. -/
def GermanString.inlineMaxLength : ℕ := 12

/-- `PREFIX_LENGTH`. -/
def GermanString.prefixLength : ℕ := 4

/-- `GermanString`: `len`, and the bytes behind it. -/
structure GermanString where
  len : ℕ
  rep : Fin 12 → UInt8

namespace GermanString

/-- The byte `i` of a `uint32_t` or `uintptr_t`. -/
def byte (x i : ℕ) : UInt8 := UInt8.ofNat (x / 256 ^ i)

/-- `long_rep.ptr = …`. -/
def setPtr (rep : Fin 12 → UInt8) (ptr : ℕ) : Fin 12 → UInt8 := fun i =>
  if 4 ≤ i.val then byte ptr (i.val - 4) else rep i

/-- `memcpy(short_rep.str, …)`. -/
def setStr (rep : Fin 12 → UInt8) (bytes : List UInt8) : Fin 12 → UInt8 := fun i =>
  bytes.getD i.val (rep i)

/-- **The constructor** from `str`, `len` and `remaining`, over the bytes
`rep` that were there before. -/
def new (heap : Heap) (rep : Fin 12 → UInt8) (str : List UInt8) (remaining : UInt64) :
    GermanString × Heap :=
  let len := str.length % 2 ^ 32
  if str.length ≤ inlineMaxLength then (⟨len, setStr (setPtr rep 0) str⟩, heap)
  else
    (⟨len, setPtr (setStr rep (str.take prefixLength)) remaining.toNat⟩,
      heap.memcpy remaining.toNat (str.drop prefixLength))

variable (heap : Heap) (s t : GermanString)

/-- `short_rep.str`, and `long_rep.prefix`, which is at the same place. -/
def str : Chars := fun i => if h : i < 12 then s.rep ⟨i, h⟩ else 0

/-- `long_rep.ptr`. -/
def ptr : ℕ :=
  (s.rep 4).toNat + 256 * ((s.rep 5).toNat + 256 * ((s.rep 6).toNat + 256 * ((s.rep 7).toNat +
    256 * ((s.rep 8).toNat + 256 * ((s.rep 9).toNat + 256 * ((s.rep 10).toNat +
    256 * (s.rep 11).toNat))))))

/-- The bytes of the object. -/
def raw : Chars := fun i => if i < 4 then byte s.len i else s.str (i - 4)

def isInline : Bool := s.len ≤ inlineMaxLength

/-- **`compare`.** -/
def compare : ℤ :=
  if s.isInline && t.isInline then memcompare s.str s.len t.str t.len
  else if s.isInline then
    let minLen := min s.len prefixLength
    let r := memcompare s.str minLen t.str minLen
    if r ≠ 0 then r
    else if minLen ≤ prefixLength then -1
    else
      memcompare (fun i => s.str (i + prefixLength)) (s.len - prefixLength) (heap.chars t.ptr)
        (t.len - prefixLength)
  else if t.isInline then
    let minLen := min t.len prefixLength
    let r := memcompare s.str minLen t.str minLen
    if r ≠ 0 then r
    else if minLen ≤ prefixLength then 1
    else
      memcompare (heap.chars s.ptr) (s.len - prefixLength) (fun i => t.str (i + prefixLength))
        (t.len - prefixLength)
  else
    let r := memcompare s.str prefixLength t.str prefixLength
    if r ≠ 0 then r
    else
      memcompare (heap.chars s.ptr) (s.len - prefixLength) (heap.chars t.ptr)
        (t.len - prefixLength)

/-- **`operator==`.** -/
def eq : Bool :=
  if s.isInline || t.isInline then memcompare s.raw 16 t.raw 16 == 0
  else
    memcompare s.str prefixLength t.str prefixLength == 0 &&
      memcompare (heap.chars s.ptr) (s.len - prefixLength) (heap.chars t.ptr)
        (t.len - prefixLength) == 0

/-- The first `n` bytes behind a pointer. -/
def bytes (p : Chars) : ℕ → List UInt8
  | 0 => []
  | n + 1 => p 0 :: bytes (fun i => p (i + 1)) n

/-- **`operator std::string`.** -/
def toString : List UInt8 :=
  if s.len ≤ inlineMaxLength then bytes s.str s.len
  else bytes s.str prefixLength ++ bytes (heap.chars s.ptr) (s.len - prefixLength)

end GermanString

end CppEtudes
