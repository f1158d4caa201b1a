import CppEtudes.Common.Regions
import CppEtudes.GermanString.Model.GermanString

/-!
# The memory of long German strings

`GermanStringExternalAllocator` hands out the areas of the bytes that do
not fit into the objects: parts of pages for medium strings, and a
`std::string` for each large one. The vectors of pages and of strings are
lists with the last element first; when they grow, their elements are
moved, which takes the buffers along.

An address that `operator new` returns is an argument of the call that
asks for a buffer.
-/

namespace CppEtudes

namespace GermanString

/-- A `std::vector<char>`. -/
structure CharVector where
  data : ℕ
  size : ℕ
  capacity : ℕ

namespace CharVector

/-- A vector without a buffer. -/
def empty : CharVector := ⟨0, 0, 0⟩

/-- The bytes are copied to a new buffer at `addr`. -/
def reallocate (v : CharVector) (heap : Heap) (capacity addr : ℕ) : CharVector × Heap :=
  ({ v with data := addr, capacity := capacity },
    heap.memcpy addr (bytes (heap.chars v.data) v.size))

/-- `reserve`. -/
def reserve (v : CharVector) (heap : Heap) (n addr : ℕ) : CharVector × Heap :=
  if v.capacity < n then v.reallocate heap n addr else (v, heap)

/-- `resize`: new bytes are 0. -/
def resize (v : CharVector) (heap : Heap) (n addr : ℕ) : CharVector × Heap :=
  let (v, heap) :=
    if v.capacity < n then v.reallocate heap (max n (2 * v.size)) addr else (v, heap)
  ({ v with size := n }, heap.memcpy (v.data + v.size) (List.replicate (n - v.size) 0))

end CharVector

/-- A `std::string` that has a buffer of its own. -/
structure LargeString where
  data : ℕ
  size : ℕ

/-- `raw::make_room`, for more bytes than the string object holds itself;
there is a 0 behind them. -/
def makeRoom (heap : Heap) (n addr : ℕ) : LargeString × Heap :=
  (⟨addr, n⟩, heap.memcpy addr (List.replicate (n + 1) 0))

/-- `PAGE_SIZE`. -/
def pageSize : ℕ := 4096

/-- `MEDIUM_STRING_MAX_SIZE`. -/
def mediumStringMaxSize : ℕ := 512

/-- `GermanStringExternalAllocator`. -/
structure ExternalAllocator where
  mediumStringPages : List CharVector
  largeStrings : List LargeString

namespace ExternalAllocator

variable (a : ExternalAllocator)

/-- `size`. -/
def size : ℕ :=
  ((a.mediumStringPages.map CharVector.size).sum + (a.largeStrings.map LargeString.size).sum) %
    2 ^ 64

/-- The page that has room for `n` bytes, with the pages before it; a new
one gets its buffer at `addr`. -/
def backPage (heap : Heap) (n addr : ℕ) : (CharVector × List CharVector) × Heap :=
  let newPage :=
    let (page, heap) := CharVector.empty.reserve heap pageSize addr
    ((page, a.mediumStringPages), heap)
  match a.mediumStringPages with
  | [] => newPage
  | page :: pages => if pageSize < page.size + n then newPage else ((page, pages), heap)

/-- **`allocate`**, with the addresses of a new page or large string and
of the buffer of a page that has to grow. -/
def allocate (heap : Heap) (n addr grown : ℕ) : UInt64 × ExternalAllocator × Heap :=
  if n ≤ inlineMaxLength then (0, a, heap)
  else
    let n := n - prefixLength
    if n ≤ mediumStringMaxSize then
      let ((page, pages), heap) := a.backPage heap n addr
      let (page, heap) := page.resize heap (page.size + n) grown
      (UInt64.ofNat (page.data + page.size - n), { a with mediumStringPages := page :: pages },
        heap)
    else
      let (str, heap) := makeRoom heap n addr
      (UInt64.ofNat str.data, { a with largeStrings := str :: a.largeStrings }, heap)

/-- The buffers in use. -/
def buffers : List Region :=
  a.mediumStringPages.map (fun page => ⟨page.data, page.capacity⟩) ++
    a.largeStrings.map fun str => ⟨str.data, str.size + 1⟩

end ExternalAllocator

/-- **The constructor** that copies `rhs`, with an area of its own. -/
def copy (heap : Heap) (rhs : GermanString) (remaining : UInt64) : GermanString × Heap :=
  if rhs.len ≤ inlineMaxLength then (rhs, heap)
  else
    (⟨rhs.len, setPtr rhs.rep remaining.toNat⟩,
      heap.memcpy remaining.toNat (bytes (heap.chars rhs.ptr) (rhs.len - prefixLength)))

/-! ## Sequences of strings -/

/-- What a string is made from. -/
inductive Source
  | bytes (str : List UInt8)
  | copy (i : ℕ)

/-- One more string, with the bytes that its object lies over and the
addresses that `operator new` returns. -/
structure Build where
  source : Source
  rep : Fin 12 → UInt8
  addr : ℕ
  grown : ℕ

/-- One allocator, and the strings that use it. -/
structure Strings where
  allocator : ExternalAllocator
  heap : Heap
  strings : List GermanString

namespace Strings

/-- No strings yet, in memory that holds anything. -/
def start (heap : Heap) : Strings := ⟨⟨[], []⟩, heap, []⟩

/-- A string is built in the area it is given. -/
def build (st : Strings) (b : Build) : Option Strings :=
  match b.source with
  | .bytes str =>
    let (remaining, allocator, heap) := st.allocator.allocate st.heap str.length b.addr b.grown
    let (s, heap) := new heap b.rep str remaining
    some ⟨allocator, heap, st.strings ++ [s]⟩
  | .copy i => do
    let rhs ← st.strings[i]?
    let (remaining, allocator, heap) := st.allocator.allocate st.heap rhs.len b.addr b.grown
    let (s, heap) := GermanString.copy heap rhs remaining
    return ⟨allocator, heap, st.strings ++ [s]⟩

def run (st : Strings) (builds : List Build) : Option Strings := builds.foldlM build st

end Strings

end GermanString

end CppEtudes
