import CppEtudes.Common.Machine
import CppEtudes.Concurrent.Model.MichaelList

/-!
# The split-ordered hash table

`Hash`, run by one thread. All entries are in one lock-free list in the
order of their reversed bits; a slot points to a dummy node of the list,
which is made when the slot is first needed. The slots are found through
a tree of arrays of 512 pointers.

The list is walked with some fuel. A call has no result when the fuel is
used up, and where the source would fail: at an assertion, at
`__builtin_clz(0)`, behind the end of `missing_slot_indices` and at a
null pointer.
-/

namespace CppEtudes

namespace Concurrent

/-! ## Keys -/

/-- The loop of `reverse_bits`, for at most `rounds` rounds. -/
def reverseBitsFrom (n : BitVec 32) : ℕ → BitVec 32 → BitVec 32 → BitVec 32 → BitVec 32
  | 0, _, _, m => m
  | rounds + 1, i, j, m =>
    if i = 0 then m
    else reverseBitsFrom n rounds (i <<< 1) (j >>> 1) (if n &&& i ≠ 0 then m ||| j else m)

/-- `reverse_bits`. -/
def reverseBits (n : BitVec 32) : BitVec 32 := reverseBitsFrom n 33 1 0x80000000 0

def dummyKey (key : ℕ) : ℕ := (reverseBits (BitVec.ofNat 32 key)).toNat

def regularKey (key : ℕ) : ℕ := (reverseBits (BitVec.ofNat 32 key) ||| 0x1).toNat

/-! ## Slots -/

/-- `SLOT_INDEX_SHIFT`. -/
def slotIndexShift : ℕ := 9

/-- `SLOT_INDEX_NR`. -/
def slotIndexNr : ℕ := 1 <<< slotIndexShift

/-- `SLOT_INDEX_MASK`. -/
def slotIndexMask : ℕ := slotIndexNr - 1

/-- `HASH_SIZE_LIMIT` and `HASH_KEY_LIMIT`. -/
def hashSizeLimit : ℕ := 0xffffffff >>> 1

/-- A `SlotArray` with `n` levels of arrays below it. An entry of the last
array is a pointer into the list. -/
@[reducible] def SlotTree : ℕ → Type
  | 0 => Fin slotIndexNr → Option ℕ
  | n + 1 => Fin slotIndexNr → Option (SlotTree n)

/-- The address of an entry of a last array. -/
@[reducible] def Cell : ℕ → Type
  | 0 => Fin slotIndexNr
  | n + 1 => Fin slotIndexNr × Cell n

/-- The index into the array that has `level` levels below it. -/
def slotIndex (level slotI : ℕ) : Fin slotIndexNr :=
  ⟨(slotI >>> (level * slotIndexShift)) &&& slotIndexMask,
    Nat.lt_of_le_of_lt Nat.and_le_right (by decide)⟩

namespace SlotTree

/-- `new SlotArray()`. -/
def new : (n : ℕ) → SlotTree n
  | 0 => fun _ => none
  | _ + 1 => fun _ => none

/-- **`get_slot`**: the entry of a slot, and the tree after it. -/
def getSlot (slotI : ℕ) (createIfNotExists : Bool) :
    (n : ℕ) → SlotTree n → Option (Cell n) × SlotTree n
  | 0, slots => (some (slotIndex 0 slotI), slots)
  | n + 1, slots =>
    let idx := slotIndex (n + 1) slotI
    match slots idx with
    | some sub =>
      let r := getSlot slotI createIfNotExists n sub
      (r.1.map fun c => (idx, c), Function.update slots idx (some r.2))
    | none =>
      if createIfNotExists then
        let r := getSlot slotI createIfNotExists n (new n)
        (r.1.map fun c => (idx, c), Function.update slots idx (some r.2))
      else (none, slots)

/-- `*slot_ptr`. -/
def load : (n : ℕ) → SlotTree n → Cell n → Option ℕ
  | 0, slots, idx => slots idx
  | n + 1, slots, (idx, cell) => (slots idx).bind fun sub => load n sub cell

/-- `*slot_ptr = …`. -/
def store (v : Option ℕ) : (n : ℕ) → SlotTree n → Cell n → SlotTree n
  | 0, slots, idx => Function.update slots idx v
  | n + 1, slots, (idx, cell) =>
    Function.update slots idx ((slots idx).map fun sub => store v n sub cell)

end SlotTree

/-- The loop of `calc_level_nr`, which takes less than `rounds` rounds. -/
def calcLevelNrFrom : ℕ → ℕ → ℕ → ℕ
  | 0, _, levelNr => levelNr
  | rounds + 1, expectMaxSize, levelNr =>
    if slotIndexNr < expectMaxSize then
      calcLevelNrFrom rounds ((expectMaxSize + slotIndexNr - 1) / slotIndexNr) (levelNr + 1)
    else levelNr

/-- `calc_level_nr`. -/
def calcLevelNr (expectMaxSize : ℕ) : ℕ := calcLevelNrFrom expectMaxSize expectMaxSize 1

/-- `PARENT_SLOT(n)`, of a `uint32_t`: the shift takes its count modulo
32, as the machine does. -/
def parentSlot (n : ℕ) : Option ℕ :=
  (Machine.builtinClz n).map fun (clz : ℕ) =>
    n &&& (1 <<< (Machine.toSizeT (4 - 1 - (clz : ℤ)) % 32))

/-! ## The table -/

/-- `Hash`, with `level_nr` arrays on the way to a slot: `depth` and the
last. -/
structure Hash (depth : ℕ) (τ : Type) where
  head : SlotTree depth
  list : Memory τ
  size : ℕ
  slotNr : ℕ
  loadFactor : ℕ
  maxSlotNr : ℕ

namespace Hash

variable {depth : ℕ} {τ : Type} [DecidableEq τ] [Zero τ] [One τ] [Add τ]

section Methods

variable (h : Hash depth τ)

def getOrCreateSlot (slotI : ℕ) : Option (Cell depth × Hash depth τ) :=
  match SlotTree.getSlot slotI true depth h.head with
  | (some slotPtr, head) => some (slotPtr, { h with head := head })
  | (none, _) => none

def getSlotIfExists (slotI : ℕ) : Option (Cell depth) := (SlotTree.getSlot slotI false depth h.head).1

def getSlotIdx (key : ℕ) : ℕ := key &&& (h.slotNr - 1)

def maybeResize : Hash depth τ :=
  if h.loadFactor < h.size / h.slotNr ∧ h.slotNr <<< 1 < h.maxSlotNr then
    { h with slotNr := h.slotNr <<< 1 }
  else h

/-- The loop over the parents. There is room for `room` more of them in
`missing_slot_indices`, whose last entry comes first here. -/
def missingSlots (room : ℕ) (h : Hash depth τ) (parentSlotI : ℕ) (missing : List ℕ)
    (slotPtr : Cell depth) : Option (List ℕ × Cell depth × Hash depth τ) :=
  if parentSlotI = 0 then some (missing, slotPtr, h)
  else do
    let (slotPtr, h) ← h.getOrCreateSlot parentSlotI
    if (SlotTree.load depth h.head slotPtr).isSome then return (missing, slotPtr, h)
    match room with
    | 0 => none
    | room + 1 =>
      let next ← parentSlot parentSlotI
      missingSlots room h next (parentSlotI :: missing) slotPtr

/-- The body of the loop over the missing slots. -/
def initSlot (fuel : ℕ) (h : Hash depth τ) (missingSlotI : ℕ) : Option (Hash depth τ) := do
  let (list, r) ← h.list.insert none (dummyKey missingSlotI) 0 fuel
  let dummyNode ← (if r.ok then some h.list.fresh else r.node)
  let (slotPtr, h) ← { h with list := list }.getOrCreateSlot missingSlotI
  return { h with head := SlotTree.store (some dummyNode) depth h.head slotPtr }

/-- **`ensure_slot_exists`.** `missing_slot_indices` has four entries. -/
def ensureSlotExists (slotI fuel : ℕ) : Option (Option ℕ × Hash depth τ) := do
  let (slotPtr, h) ← h.getOrCreateSlot slotI
  if (SlotTree.load depth h.head slotPtr).isSome then return (SlotTree.load depth h.head slotPtr, h)
  let parentSlotI ← parentSlot slotI
  let (missing, slotPtr, h) ← h.missingSlots 3 parentSlotI [slotI] slotPtr
  let h ← missing.foldlM (initSlot fuel) h
  return (SlotTree.load depth h.head slotPtr, h)

/-- **`Put`.** -/
def put (key value fuel : ℕ) : Option (Bool × Hash depth τ) :=
  if hashSizeLimit < key then none
  else do
    let (head, h) ← h.maybeResize.ensureSlotExists (h.maybeResize.getSlotIdx key) fuel
    let head ← head
    let (list, r) ← h.list.insert (some head) (regularKey key) value fuel
    if r.ok then return (true, { h with list := list, size := (h.size + 1) % 2 ^ 32 })
    else return (false, { h with list := list })

/-- The loop of `Get`: what `Search` returns from the first slot that is
there. -/
def getFrom (key fuel : ℕ) : ℕ → ℕ → Option (Memory τ × Result)
  | 0, _ => none
  | rounds + 1, slotI =>
    match (h.getSlotIfExists slotI).bind (SlotTree.load depth h.head) with
    | some slotHead => h.list.search (some slotHead) (regularKey key) fuel
    | none => do
      let slotI ← parentSlot slotI
      getFrom key fuel rounds slotI

/-- **`Get`**: the value, if the key is there. -/
def get (key fuel : ℕ) : Option (Option ℕ × Hash depth τ) :=
  if hashSizeLimit < key then none
  else do
    let (list, r) ← h.getFrom key fuel fuel (h.getSlotIdx key)
    return (if r.ok then r.value else none, { h with list := list })

end Methods

/-- The constructor. -/
def new (expectMaxSize loadFactor fuel : ℕ) : Option (Hash (calcLevelNr expectMaxSize - 1) τ) :=
  if 0 < expectMaxSize ∧ expectMaxSize < hashSizeLimit ∧ 0 < loadFactor ∧
      loadFactor ≤ expectMaxSize then do
    let h : Hash (calcLevelNr expectMaxSize - 1) τ :=
      { head := SlotTree.new _, list := .new, size := 0, slotNr := 2, loadFactor := loadFactor
        maxSlotNr := (expectMaxSize + loadFactor - 1) / loadFactor }
    let (slotPtr, h) ← h.getOrCreateSlot 0
    let (list, _) ← h.list.insert none (dummyKey 0) 0 fuel
    return { h with head := SlotTree.store (some h.list.fresh) _ h.head slotPtr, list := list }
  else none

end Hash

/-! ## Sequences of calls -/

inductive HashCall
  | put (key value : ℕ)
  | get (key : ℕ)
  deriving DecidableEq, Repr

/-- What `Put` returns, and the value of a `Get` that succeeds. -/
inductive Answer
  | put (ok : Bool)
  | get (value : Option ℕ)
  deriving DecidableEq, Repr

def HashCall.key : HashCall → ℕ
  | .put key _ => key
  | .get key => key

namespace Hash

variable {depth : ℕ} {τ : Type} [DecidableEq τ] [Zero τ] [One τ] [Add τ]

def call (h : Hash depth τ) (fuel : ℕ) : HashCall → Option (Answer × Hash depth τ)
  | .put key value => (h.put key value fuel).map fun r => (.put r.1, r.2)
  | .get key => (h.get key fuel).map fun r => (.get r.1, r.2)

/-- The answers to the calls, one after the other. -/
def run (fuel : ℕ) : List HashCall → Hash depth τ → Option (List Answer × Hash depth τ)
  | [], h => some ([], h)
  | c :: calls, h => do
    let (answer, h) ← h.call fuel c
    let (answers, h) ← run fuel calls h
    return (answer :: answers, h)

end Hash

end Concurrent

end CppEtudes
