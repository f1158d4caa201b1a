import CppEtudes.LruCache.Model.HandleTable
import Mathlib.Logic.Function.Basic

/-!
# One shard of the cache

`LRUCache`, with `size_t` and `uint32_t` arithmetic as the machine does
it. The LRU list is a list of handles, the oldest first; a handle stands
on it at most once. Beside the fields of the source there is the heap:
the entries that were allocated and not freed, those that were freed in
the order of `LRUHandle::free`, and the address of the next one.

The locks are left out: a call here is one that no other overlaps.
-/

namespace CppEtudes

namespace LruCache

variable {ν : Type}

structure LRUCache (ν : Type) where
  capacity : UInt64
  usage : UInt64
  lru : List (LRUHandle ν)
  table : HandleTable ν
  /-- `LRUHandle::refs`, by address. -/
  refs : ℕ → UInt32
  /-- `LRUHandle::in_cache`, by address. -/
  inCache : ℕ → Bool
  lookupCount : UInt64
  hitCount : UInt64
  heap : List (LRUHandle ν)
  freed : List (LRUHandle ν)
  fresh : ℕ

namespace LRUCache

/-- A cache as its constructor leaves it. -/
def empty : LRUCache ν :=
  { capacity := 0, usage := 0, lru := [], table := .empty, refs := fun _ => 0,
    inCache := fun _ => false, lookupCount := 0, hitCount := 0, heap := [], freed := [], fresh := 0 }

variable (c : LRUCache ν) (e : LRUHandle ν)

/-! ## Steps -/

/-- `_unref`: whether it was the last reference. -/
def unref : Bool × LRUCache ν :=
  let refs := c.refs e.addr - 1
  (refs == 0, { c with refs := Function.update c.refs e.addr refs })

def setInCache (b : Bool) : LRUCache ν := { c with inCache := Function.update c.inCache e.addr b }

/-- `_lru_remove`. -/
def lruRemove : LRUCache ν := { c with lru := c.lru.filter fun x => x.addr ≠ e.addr }

/-- `_lru_append`: the newest entry. -/
def lruAppend : LRUCache ν := { c with lru := c.lru ++ [e] }

/-- `malloc`, and the fields `insert` fills in. -/
def allocate : LRUCache ν :=
  { c with heap := c.heap ++ [e], fresh := c.fresh + 1,
           refs := Function.update c.refs e.addr 2, inCache := Function.update c.inCache e.addr true }

/-- `LRUHandle::free`. -/
def free : LRUCache ν :=
  { c with heap := c.heap.filter fun x => x.addr ≠ e.addr, freed := c.freed ++ [e] }

/-- The loop over `last_ref_list`. -/
def freeAll (lastRefList : List (LRUHandle ν)) : LRUCache ν := lastRefList.foldl free c

/-- `_evict_one_entry`. -/
def evictOneEntry : LRUCache ν :=
  let c := c.lruRemove e
  let c := { c with table := (c.table.remove e.key e.hash).2 }
  let c := c.setInCache e false
  let c := (c.unref e).2
  { c with usage := c.usage - e.charge }

/-! ## Eviction -/

/-- The first loop of `_evict_from_lru`, over the list behind `cur`, with
the entries it evicts. -/
def evictNormal (charge : UInt64) : List (LRUHandle ν) → LRUCache ν →
    LRUCache ν × List (LRUHandle ν)
  | [], c => (c, [])
  | old :: next, c =>
    if c.capacity < c.usage + charge then
      if old.priority = .durable then evictNormal charge next c
      else
        let (c, deleted) := evictNormal charge next (c.evictOneEntry old)
        (c, old :: deleted)
    else (c, [])

/-- The second loop of `_evict_from_lru`. -/
def evictDurable (charge : UInt64) : List (LRUHandle ν) → LRUCache ν →
    LRUCache ν × List (LRUHandle ν)
  | [], c => (c, [])
  | old :: next, c =>
    if c.capacity < c.usage + charge then
      let (c, deleted) := evictDurable charge next (c.evictOneEntry old)
      (c, old :: deleted)
    else (c, [])

/-- **`_evict_from_lru`**, with `deleted`. -/
def evictFromLru (charge : UInt64) : LRUCache ν × List (LRUHandle ν) :=
  let (c, normal) := evictNormal charge c.lru c
  let (c, durable) := evictDurable charge c.lru c
  (c, normal ++ durable)

/-- The loop of `prune`; its body is that of `_evict_one_entry`. -/
def evictAll : List (LRUHandle ν) → LRUCache ν → LRUCache ν × List (LRUHandle ν)
  | [], c => (c, [])
  | old :: next, c =>
    let (c, deleted) := evictAll next (c.evictOneEntry old)
    (c, old :: deleted)

/-! ## Calls -/

/-- **`set_capacity`.** -/
def setCapacity (capacity : UInt64) : LRUCache ν :=
  let (c, lastRefList) := evictFromLru { c with capacity := capacity } 0
  c.freeAll lastRefList

/-- **`lookup`.** -/
def lookup (key : CacheKey) (hash : UInt32) : Option (LRUHandle ν) × LRUCache ν :=
  let c := { c with lookupCount := c.lookupCount + 1 }
  match c.table.lookup key hash with
  | none => (none, c)
  | some e =>
    let c := if c.refs e.addr = 1 then c.lruRemove e else c
    (some e, { c with refs := Function.update c.refs e.addr (c.refs e.addr + 1),
                      hitCount := c.hitCount + 1 })

/-- **`release`.** -/
def release : Option (LRUHandle ν) → LRUCache ν
  | none => c
  | some e =>
    let (lastRef, c) := c.unref e
    let (lastRef, c) :=
      if lastRef then (true, { c with usage := c.usage - e.charge })
      else if c.inCache e.addr && c.refs e.addr == 1 then
        if c.capacity < c.usage then
          let c := { c with table := (c.table.remove e.key e.hash).2 }
          let c := c.setInCache e false
          let c := (c.unref e).2
          (true, { c with usage := c.usage - e.charge })
        else (false, c.lruAppend e)
      else (false, c)
    if lastRef then c.free e else c

/-- **`insert`**, with the handle it returns. -/
def insert (key : CacheKey) (hash : UInt32) (value : ν) (charge : UInt64)
    (priority : CachePriority) : Option (LRUHandle ν × LRUCache ν) :=
  let e : LRUHandle ν := ⟨c.fresh, key, hash, value, charge, priority⟩
  let (c, lastRefList) := (c.allocate e).evictFromLru charge
  match c.table.insert e with
  | none => none
  | some (old, table) =>
    let c := { c with table := table, usage := c.usage + charge }
    match old with
    | none => some (e, c.freeAll lastRefList)
    | some old =>
      let c := c.setInCache old false
      match c.unref old with
      | (true, c) =>
        let c := { c with usage := c.usage - old.charge }
        some (e, (c.lruRemove old).freeAll (lastRefList ++ [old]))
      | (false, c) => some (e, c.freeAll lastRefList)

/-- **`erase`.** -/
def erase (key : CacheKey) (hash : UInt32) : LRUCache ν :=
  match c.table.remove key hash with
  | (none, _) => c
  | (some e, table) =>
    match { c with table := table }.unref e with
    | (true, c) =>
      let c := { c with usage := c.usage - e.charge }
      let c := if c.inCache e.addr then c.lruRemove e else c
      (c.setInCache e false).free e
    | (false, c) => c.setInCache e false

/-- **`prune`**, with the number of entries it frees. -/
def prune : ℕ × LRUCache ν :=
  let (c, lastRefList) := evictAll c.lru c
  (lastRefList.length, c.freeAll lastRefList)

end LRUCache

/-! ## Sequences of calls -/

/-- A call of a client; it releases the `n`-th of the handles it holds. -/
inductive Call (ν : Type)
  | insert (key : CacheKey) (value : ν) (charge : UInt64) (priority : CachePriority)
  | lookup (key : CacheKey)
  | release (n : ℕ)
  | erase (key : CacheKey)
  | prune
  | setCapacity (capacity : UInt64)

/-- A cache and the handles that are outstanding. -/
structure Session (ν : Type) where
  cache : LRUCache ν
  handles : List (LRUHandle ν)

namespace Session

/-- A new cache, of which nobody holds a handle. -/
def start : Session ν := ⟨.empty, []⟩

variable (hash : CacheKey → UInt32)

/-- One call, each key with its hash. A handle that is not outstanding
cannot be released. -/
def call (s : Session ν) : Call ν → Option (Session ν)
  | .insert key value charge priority => do
    let (e, c) ← s.cache.insert key (hash key) value charge priority
    return ⟨c, e :: s.handles⟩
  | .lookup key =>
    match s.cache.lookup key (hash key) with
    | (some e, c) => some ⟨c, e :: s.handles⟩
    | (none, c) => some ⟨c, s.handles⟩
  | .release n => do
    let e ← s.handles[n]?
    return ⟨s.cache.release (some e), s.handles.eraseIdx n⟩
  | .erase key => some ⟨s.cache.erase key (hash key), s.handles⟩
  | .prune => some ⟨s.cache.prune.2, s.handles⟩
  | .setCapacity capacity => some ⟨s.cache.setCapacity capacity, s.handles⟩

def run (s : Session ν) (calls : List (Call ν)) : Option (Session ν) := calls.foldlM (call hash) s

end Session

end LruCache

end CppEtudes
