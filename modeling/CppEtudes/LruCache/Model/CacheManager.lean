import CppEtudes.LruCache.Model.LruCache

/-!
# The sharded cache and its manager

`ShardedLRUCache` sends a key to one of 32 shards by the upper bits of
its hash, and gives each shard a 32nd part of the capacity, rounded up.
`CacheManager` keeps query results in it: `populate` and `probe` hold the
handle they get until they return.

A chunk or a column may be shared by several owners, so that the sizes
`CacheValue::size` adds up are not bounded by the memory there is.
-/

namespace CppEtudes

namespace LruCache

namespace CacheKey

/-- `_decode_fixed32`, on a little-endian machine. -/
def decodeFixed32 (b₀ b₁ b₂ b₃ : UInt8) : UInt32 :=
  b₀.toUInt32 ||| b₁.toUInt32 <<< 8 ||| b₂.toUInt32 <<< 16 ||| b₃.toUInt32 <<< 24

/-- The bytes left over when fewer than four are. -/
def hashRest : List UInt8 → UInt32 → UInt32
  | [b₀, b₁, b₂], h =>
    let h := (h + b₂.toUInt32 <<< 16 + b₁.toUInt32 <<< 8 + b₀.toUInt32) * 0xc6a4a793
    h ^^^ (h >>> 24)
  | [b₀, b₁], h =>
    let h := (h + b₁.toUInt32 <<< 8 + b₀.toUInt32) * 0xc6a4a793
    h ^^^ (h >>> 24)
  | [b₀], h =>
    let h := (h + b₀.toUInt32) * 0xc6a4a793
    h ^^^ (h >>> 24)
  | _, h => h

/-- The loop of `CacheKey::hash`, four bytes at a time. -/
def hashWords : List UInt8 → UInt32 → UInt32
  | b₀ :: b₁ :: b₂ :: b₃ :: data, h =>
    let h := (h + decodeFixed32 b₀ b₁ b₂ b₃) * 0xc6a4a793
    hashWords data (h ^^^ (h >>> 16))
  | data, h => hashRest data h

/-- `CacheKey::hash`. -/
def hash (data : CacheKey) (seed : UInt32) : UInt32 :=
  hashWords data (seed ^^^ UInt32.ofNat (data.length * 0xc6a4a793))

end CacheKey

/-- `_hash_slice`. -/
def hashSlice (key : CacheKey) : UInt32 := CacheKey.hash key 0

/-- `_shard`: the five upper bits. -/
def shardOf (hash : UInt32) : Fin 32 :=
  ⟨(hash >>> 27).toNat, by
    rw [UInt32.toNat_shiftRight, Nat.shiftRight_eq_div_pow]
    exact Nat.div_lt_of_lt_mul hash.toNat_lt⟩

/-! ## `ShardedLRUCache` -/

structure ShardedLRUCache (ν : Type) where
  shards : Fin 32 → LRUCache ν
  capacity : UInt64

namespace ShardedLRUCache

variable {ν : Type}

/-- `per_shard`. -/
def perShard (capacity : UInt64) : UInt64 := (capacity + 31) / 32

/-- The constructor. -/
def new (capacity : UInt64) : ShardedLRUCache ν :=
  ⟨fun _ => LRUCache.empty.setCapacity (perShard capacity), capacity⟩

variable (s : ShardedLRUCache ν)

def setShard (i : Fin 32) (c : LRUCache ν) : ShardedLRUCache ν :=
  { s with shards := Function.update s.shards i c }

/-- `ShardedLRUCache::insert`. -/
def insert (key : CacheKey) (value : ν) (charge : UInt64) (priority : CachePriority) :
    Option (LRUHandle ν × ShardedLRUCache ν) :=
  let hash := hashSlice key
  ((s.shards (shardOf hash)).insert key hash value charge priority).map fun r =>
    (r.1, s.setShard (shardOf hash) r.2)

/-- `ShardedLRUCache::lookup`. -/
def lookup (key : CacheKey) : Option (LRUHandle ν) × ShardedLRUCache ν :=
  let hash := hashSlice key
  let r := (s.shards (shardOf hash)).lookup key hash
  (r.1, s.setShard (shardOf hash) r.2)

/-- `ShardedLRUCache::release`. -/
def release (handle : LRUHandle ν) : ShardedLRUCache ν :=
  s.setShard (shardOf handle.hash) ((s.shards (shardOf handle.hash)).release (some handle))

/-- `ShardedLRUCache::prune`. -/
def prune : ShardedLRUCache ν := { s with shards := fun i => (s.shards i).prune.2 }

/-- `get_memory_usage`. -/
def getMemoryUsage : UInt64 :=
  (List.finRange 32).foldl (fun total i => total + (s.shards i).usage) 0

end ShardedLRUCache

/-! ## `CacheManager` -/

/-- A column; its bytes are what its size counts. -/
structure Column where
  data : List UInt8

def Column.size (c : Column) : UInt64 := UInt64.ofNat c.data.length

structure Chunk where
  columns : List Column

def Chunk.bytesUsage (c : Chunk) : UInt64 := c.columns.foldl (fun n column => n + column.size) 0

structure CacheValue where
  latestHitTime : Int64
  hitCount : Int64
  populateTime : Int64
  version : Int64
  result : List Chunk

def CacheValue.size (v : CacheValue) : UInt64 := v.result.foldl (fun n chk => n + chk.bytesUsage) 0

/-- `absl::Status`, as far as the manager returns one. -/
inductive Status
  | ok
  | notFound (message : String)

/-- `CACHE_MISS`. -/
def cacheMiss : Status := .notFound "CacheMiss"

structure CacheManager where
  cache : ShardedLRUCache CacheValue

namespace CacheManager

def new (capacity : UInt64) : CacheManager := ⟨.new capacity⟩

variable (m : CacheManager)

def memoryUsage : UInt64 := m.cache.getMemoryUsage

def capacity : UInt64 := m.cache.capacity

/-- **`populate`.** The handle an `insert` returns is never null. -/
def populate (key : CacheKey) (value : CacheValue) : Option (Status × CacheManager) := do
  let (handle, cache) ← m.cache.insert key value value.size .normal
  let cache := if cache.capacity < cache.getMemoryUsage then cache.prune else cache
  return (.ok, ⟨cache.release handle⟩)

/-- **`probe`.** -/
def probe (key : CacheKey) : Except Status CacheValue × CacheManager :=
  match m.cache.lookup key with
  | (none, cache) => (.error cacheMiss, ⟨cache⟩)
  | (some handle, cache) => (.ok handle.value, ⟨cache.release handle⟩)

end CacheManager

/-- A call of the manager. -/
inductive ManagerCall
  | populate (key : CacheKey) (value : CacheValue)
  | probe (key : CacheKey)

namespace CacheManager

def call (m : CacheManager) : ManagerCall → Option CacheManager
  | .populate key value => (m.populate key value).map Prod.snd
  | .probe key => some (m.probe key).2

def run (m : CacheManager) (calls : List ManagerCall) : Option CacheManager := calls.foldlM call m

end CacheManager

end LruCache

end CppEtudes
