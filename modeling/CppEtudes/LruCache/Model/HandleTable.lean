import CppEtudes.Common.Chains
import Mathlib.Data.UInt

/-!
# Handles and their table

An `LRUHandle` as it is filled in by `LRUCache::insert`; its address
tells it from every other one. The two fields that change later, `refs`
and `in_cache`, are kept by the cache. `HandleTable` is the table of
chains the cache finds its handles in.

A call that does not return has no result: `_resize` doubles a
`uint32_t`, which becomes 0 and stays there once more than `2^31`
handles have to fit, and `LOG(FATAL)` ends the program.
-/

namespace CppEtudes

namespace LruCache

/-- The bytes of a key; two keys are equal when their bytes are. -/
abbrev CacheKey := List UInt8

inductive CachePriority
  | normal
  | durable
  deriving DecidableEq, Repr

/-- What `insert` writes into a new entry. -/
structure LRUHandle (ν : Type) where
  /-- The address of the entry. -/
  addr : ℕ
  key : CacheKey
  hash : UInt32
  value : ν
  charge : UInt64
  priority : CachePriority
  deriving DecidableEq

variable {ν : Type}

/-- `_find_pointer` compares the hash and then the key, in the chain
`hash & (_length - 1)`. -/
def handleHashing : Hashing (LRUHandle ν) (UInt32 × CacheKey) where
  key e := (e.hash, e.key)
  home n k := k.1.toNat &&& (n - 1)
  home_lt h := Nat.lt_of_le_of_lt Nat.and_le_right (Nat.sub_lt h Nat.one_pos)

/-- `HandleTable`; `_length` is the number of chains. -/
structure HandleTable (ν : Type) where
  list : Chains (LRUHandle ν)
  elems : UInt32

namespace HandleTable

/-- The handles of the table. -/
def entries (t : HandleTable ν) : List (LRUHandle ν) := t.list.flatten

/-- `HandleTable::lookup`. -/
def lookup (t : HandleTable ν) (key : CacheKey) (hash : UInt32) : Option (LRUHandle ν) :=
  t.list.lookup handleHashing (hash, key)

/-- The loop of `_resize`, from `new_length`; `rounds` bounds its turns. -/
def growLength (elems : UInt32) : ℕ → UInt32 → Option UInt32
  | 0, _ => none
  | rounds + 1, newLength =>
    if newLength < elems then growLength elems rounds (newLength * 2) else some newLength

/-- `_resize`. After 30 doublings `new_length` is 0 and stays so. -/
def resize (t : HandleTable ν) : Option (HandleTable ν) := do
  let newLength ← growLength t.elems 31 4
  let count := UInt32.ofNat t.list.flatten.length
  if t.elems ≠ count then none
  else some { t with list := t.list.rehash handleHashing newLength.toNat }

/-- A table as its constructor leaves it. -/
def empty : HandleTable ν := ⟨List.replicate 4 [], 0⟩

/-- `HandleTable::insert`, with the handle it replaces. -/
def insert (t : HandleTable ν) (e : LRUHandle ν) : Option (Option (LRUHandle ν) × HandleTable ν) :=
  let list := t.list.insert handleHashing e
  match t.lookup e.key e.hash with
  | some old => some (some old, { t with list := list })
  | none =>
    let t : HandleTable ν := ⟨list, t.elems + 1⟩
    if t.list.length < t.elems.toNat then t.resize.map fun t => (none, t) else some (none, t)

/-- `HandleTable::remove`, with the handle it takes out. -/
def remove (t : HandleTable ν) (key : CacheKey) (hash : UInt32) :
    Option (LRUHandle ν) × HandleTable ν :=
  match t.lookup key hash with
  | none => (none, t)
  | some result => (some result, ⟨t.list.erase handleHashing (hash, key), t.elems - 1⟩)

example : (⟨[], 0⟩ : HandleTable ν).resize = some empty := rfl

end HandleTable

end LruCache

end CppEtudes
