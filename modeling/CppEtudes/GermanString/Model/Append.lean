import CppEtudes.GermanString.Model.GermanString

/-!
# Appending to a German string

`append` writes through pointers into the object and behind it, so here
the object lies in memory: four bytes of `len` at `obj`, then the twelve
of `short_rep.str` or `long_rep`. Beside the memory the addresses that are
written are kept, with the number of bytes.
-/

namespace CppEtudes

namespace GermanString

/-- The object at `obj`. -/
def Heap.load (memory : Heap) (obj : ℕ) : GermanString where
  len := (memory obj).toNat + 256 * ((memory (obj + 1)).toNat +
    256 * ((memory (obj + 2)).toNat + 256 * (memory (obj + 3)).toNat))
  rep i := memory (obj + 4 + i.val)

/-- **The constructor** for the object at `obj`. -/
def construct (memory : Heap) (obj : ℕ) (str : List UInt8) (remaining : UInt64) : Heap :=
  let (s, memory) := new memory (memory.load obj).rep str remaining
  memory.memcpy obj (bytes s.raw 16)

/-- Memory, and what has been written. -/
structure Written where
  memory : Heap
  writes : List (ℕ × ℕ)

def Written.memcpy (m : Written) (addr : ℕ) (bytes : List UInt8) : Written :=
  ⟨m.memory.memcpy addr bytes, m.writes ++ [(addr, bytes.length)]⟩

/-- The bytes of a `uint32_t` or `uintptr_t`. -/
def littleEndian (size x : ℕ) : List UInt8 := (List.range size).map (byte x)

/-- **`append`** on the object at `obj`. The bound that the length is
compared with is for the appended bytes alone. -/
def append (m : Written) (obj : ℕ) (str : List UInt8) (remaining : UInt64) : Written :=
  let oldLen := (m.memory.load obj).len
  let m := m.memcpy obj (littleEndian 4 ((oldLen + str.length) % 2 ^ 32))
  if str.length ≤ inlineMaxLength then m.memcpy (obj + 4 + oldLen) str
  else if oldLen ≤ inlineMaxLength then
    let remainingFrontLen := (oldLen + 2 ^ 32 - prefixLength) % 2 ^ 32
    let remainingFront := (m.memory.load obj).ptr
    let m := m.memcpy remaining.toNat (bytes (m.memory.chars remainingFront) remainingFrontLen)
    let m := m.memcpy (remaining.toNat + remainingFrontLen) str
    m.memcpy (obj + 8) (littleEndian 8 remaining.toNat)
  else m.memcpy remaining.toNat str

end GermanString

end CppEtudes
