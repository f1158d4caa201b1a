import CppEtudes.Common.Circular
import CppEtudes.LruCache.Model.LruCache

/-!
# Eviction from the linked list

`_evict_from_lru` as it walks the circular list of the handles. The place
`none` is `_lru`, and `some addr` the handle at that address. The loops
run with some fuel; they have no result where a null pointer is followed,
and where the assertion of the second one fails.
-/

namespace CppEtudes

namespace LruCache

variable {ν : Type}

/-- What `_evict_from_lru` works on. -/
structure LinkedCache (ν : Type) where
  capacity : UInt64
  usage : UInt64
  /-- `next` and `prev` of `_lru` and of the handles. -/
  lru : Circular ℕ
  /-- The other fields of a handle, by address. -/
  handle : ℕ → LRUHandle ν
  table : HandleTable ν
  refs : ℕ → UInt32
  inCache : ℕ → Bool

namespace LinkedCache

/-- `_lru_remove`. -/
def lruRemove (c : LinkedCache ν) (e : ℕ) : Option (LinkedCache ν) := do
  let lru ← c.lru.remove (some e)
  return { c with lru := lru }

/-- `_evict_one_entry`. -/
def evictOneEntry (c : LinkedCache ν) (e : ℕ) : Option (LinkedCache ν) := do
  let c ← c.lruRemove e
  return { c with
    table := (c.table.remove (c.handle e).key (c.handle e).hash).2
    inCache := Function.update c.inCache e false
    refs := Function.update c.refs e (c.refs e - 1)
    usage := c.usage - (c.handle e).charge }

/-- The first loop of `_evict_from_lru`, from `cur` on. -/
def evictNormal (charge : UInt64) : ℕ → LinkedCache ν → Option ℕ →
    Option (LinkedCache ν × List (LRUHandle ν))
  | 0, _, _ => none
  | fuel + 1, c, cur =>
    if c.capacity < c.usage + charge then do
      match ← c.lru.next cur with
      | none => return (c, [])
      | some old =>
        if (c.handle old).priority = .durable then evictNormal charge fuel c (some old)
        else
          let c' ← c.evictOneEntry old
          let (c', deleted) ← evictNormal charge fuel c' cur
          return (c', c.handle old :: deleted)
    else some (c, [])

/-- The second loop of `_evict_from_lru`. -/
def evictDurable (charge : UInt64) : ℕ → LinkedCache ν → Option (LinkedCache ν × List (LRUHandle ν))
  | 0, _ => none
  | fuel + 1, c =>
    if c.capacity < c.usage + charge then do
      match ← c.lru.next none with
      | none => return (c, [])
      | some old =>
        if (c.handle old).priority = .durable then
          let c' ← c.evictOneEntry old
          let (c', deleted) ← evictDurable charge fuel c'
          return (c', c.handle old :: deleted)
        else none
    else some (c, [])

/-- **`_evict_from_lru`**, with `deleted`. -/
def evictFromLru (fuel : ℕ) (c : LinkedCache ν) (charge : UInt64) :
    Option (LinkedCache ν × List (LRUHandle ν)) := do
  let (c, normal) ← evictNormal charge fuel c none
  let (c, durable) ← evictDurable charge fuel c
  return (c, normal ++ durable)

end LinkedCache

end LruCache

end CppEtudes
