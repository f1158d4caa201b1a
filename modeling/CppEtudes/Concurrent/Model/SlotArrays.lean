import CppEtudes.Common.ArrayTree
import CppEtudes.Concurrent.Model.Hash

/-!
# The slot arrays in memory

`get_slot` over the memory that the slot arrays lie in: an entry of an
array is a pointer, to another array or, on the last level, into the list.
One thread, so that every `compare_exchange` succeeds.

Where `new` puts an array is up to the allocator, which knows the arrays
that are in use.
-/

namespace CppEtudes

namespace Concurrent

/-- A pointer to an entry of an array: the address of the array, and the
index. -/
abbrev SlotPtr := ℕ × Fin slotIndexNr

/-- The memory of the slot arrays: their entries by address, and the
addresses in use. -/
structure SlotMemory where
  slots : ℕ → Fin slotIndexNr → Option ℕ
  arrays : List ℕ

namespace SlotMemory

/-- `*slot_ptr`. -/
def load (m : SlotMemory) (slotPtr : SlotPtr) : Option ℕ := m.slots slotPtr.1 slotPtr.2

/-- `*slot_ptr = …`. -/
def store (m : SlotMemory) (slotPtr : SlotPtr) (v : Option ℕ) : SlotMemory :=
  { m with slots := ArrayTree.write m.slots slotPtr.1 slotPtr.2 v }

section Allocator

variable (alloc : List ℕ → ℕ)

/-- `new SlotArray()`, with all entries null. -/
def newArray (m : SlotMemory) : ℕ × SlotMemory :=
  (alloc m.arrays,
    { slots := ArrayTree.clear m.slots (alloc m.arrays), arrays := alloc m.arrays :: m.arrays })

/-- The loop of **`get_slot`**, at an array with `level` levels below it. -/
def getSlot (slotI : ℕ) (createIfNotExists : Bool) :
    (level currentHead : ℕ) → SlotMemory → Option SlotPtr × SlotMemory
  | 0, currentHead, m => (some (currentHead, slotIndex 0 slotI), m)
  | level + 1, currentHead, m =>
    let slotPtr := (currentHead, slotIndex (level + 1) slotI)
    match m.load slotPtr with
    | some subHead => getSlot slotI createIfNotExists level subHead m
    | none =>
      if createIfNotExists then
        let (subHead, m) := m.newArray alloc
        getSlot slotI createIfNotExists level subHead (m.store slotPtr (some subHead))
      else (none, m)

/-- `head = new SlotArray()`, in memory that holds anything. -/
def start (slots : ℕ → Fin slotIndexNr → Option ℕ) : ℕ × SlotMemory :=
  newArray alloc { slots := slots, arrays := [] }

end Allocator

end SlotMemory

/-! ## Sequences of calls -/

/-- `get_slot(slot_i, create_if_not_exists)`, or
`*get_or_create_slot(slot_i) = v`. -/
inductive SlotCall
  | get (slotI : ℕ) (createIfNotExists : Bool)
  | put (slotI : ℕ) (v : Option ℕ)
  deriving DecidableEq, Repr

namespace SlotMemory

variable (alloc : List ℕ → ℕ) (depth head : ℕ)

/-- The memory behind a call. -/
def call (m : SlotMemory) : SlotCall → SlotMemory
  | .get slotI createIfNotExists => (getSlot alloc slotI createIfNotExists depth head m).2
  | .put slotI v =>
    match getSlot alloc slotI true depth head m with
    | (some slotPtr, m) => m.store slotPtr v
    | (none, m) => m

/-- The memory behind a sequence of calls. -/
def run (m : SlotMemory) (calls : List SlotCall) : SlotMemory :=
  calls.foldl (call alloc depth head) m

end SlotMemory

end Concurrent

end CppEtudes
