import CppEtudes.Common.Buckets
import CppEtudes.LruCache.Model.HandleTable

/-!
# The table of handles in memory

`HandleTable` as it lies in memory: `_list` is an array of pointers, and
each handle points to the next one of its chain. The calls edit the
chains through pointers to those pointers, and `_resize` moves the handles
to a new array one by one.

A call has no result where it reads beyond an array, where `LOG(FATAL)`
ends the program, and where its loops need more rounds than the fuel it
is run with.
-/

namespace CppEtudes

namespace LruCache

open Buckets

variable {ν : Type}

/-- `HandleTable`, with the memory of the handles. -/
structure LinkedTable (ν : Type) where
  length : UInt32
  elems : UInt32
  /-- `_list`, and `next_hash` by address. -/
  list : Buckets ℕ
  /-- The other fields of a handle, by address. -/
  handle : ℕ → LRUHandle ν

namespace LinkedTable

/-! ## Chains -/

/-- The loop of `_find_pointer`, from `ptr` on. -/
def findPointerFrom (t : LinkedTable ν) (key : CacheKey) (hash : UInt32) :
    ℕ → Place ℕ → Option (Place ℕ)
  | 0, _ => none
  | fuel + 1, ptr => do
    match ← t.list.read ptr with
    | none => return ptr
    | some h =>
      if (t.handle h).hash ≠ hash ∨ key ≠ (t.handle h).key then
        t.findPointerFrom key hash fuel (.next h)
      else return ptr

/-- `_find_pointer`. -/
def findPointer (fuel : ℕ) (t : LinkedTable ν) (key : CacheKey) (hash : UInt32) :
    Option (Place ℕ) :=
  t.findPointerFrom key hash fuel (.head (hash &&& (t.length - 1)).toNat)

/-! ## Resizing -/

/-- What the loops of `_resize` work on: the new array with `next_hash`,
and the handles counted. -/
structure Moved where
  list : Buckets ℕ
  count : UInt32

/-- The inner loop of `_resize`, from the handle at `h` on. -/
def moveChain (t : LinkedTable ν) (newLength : UInt32) : ℕ → Moved → Option ℕ → Option Moved
  | 0, _, _ => none
  | _ + 1, m, none => some m
  | fuel + 1, m, some h => do
    let next := m.list.next h
    let ptr := .head ((t.handle h).hash &&& (newLength - 1)).toNat
    let first ← m.list.read ptr
    t.moveChain newLength fuel
      ⟨(m.list.write (.next h) first).write ptr (some h), m.count + 1⟩ next

/-- The round `i` of the outer loop of `_resize`. -/
def moveSlot (fuel : ℕ) (t : LinkedTable ν) (newLength : UInt32) (m : Moved) (i : ℕ) :
    Option Moved := do
  let h ← t.list.heads[i]?
  t.moveChain newLength fuel m h

/-- `_resize`. -/
def resize (fuel : ℕ) (t : LinkedTable ν) : Option (LinkedTable ν) := do
  let newLength ← HandleTable.growLength t.elems fuel 4
  let m ← (List.range t.length.toNat).foldlM (t.moveSlot fuel newLength)
    ⟨⟨List.replicate newLength.toNat none, t.list.next⟩, 0⟩
  if t.elems ≠ m.count then none
  else return { t with list := m.list, length := newLength }

/-! ## Calls -/

/-- The constructor, in a memory that holds anything. -/
def new (fuel : ℕ) (nextHash : ℕ → Option ℕ) (handle : ℕ → LRUHandle ν) :
    Option (LinkedTable ν) :=
  resize fuel { length := 0, elems := 0, list := ⟨[], nextHash⟩, handle := handle }

/-- `HandleTable::lookup`: the address of the handle, or null. -/
def lookup (fuel : ℕ) (t : LinkedTable ν) (key : CacheKey) (hash : UInt32) :
    Option (Option ℕ) := do
  let ptr ← t.findPointer fuel key hash
  t.list.read ptr

/-- `HandleTable::insert` of a handle that has been filled in at its
address. -/
def insert (fuel : ℕ) (t : LinkedTable ν) (h : LRUHandle ν) :
    Option (Option ℕ × LinkedTable ν) := do
  let t := { t with handle := Function.update t.handle h.addr h }
  let ptr ← t.findPointer fuel h.key h.hash
  let old ← t.list.read ptr
  let list := (t.list.write (.next h.addr) (old.bind t.list.next)).write ptr (some h.addr)
  let t := { t with list := list }
  match old with
  | some old => return (some old, t)
  | none =>
    let t := { t with elems := t.elems + 1 }
    if t.length < t.elems then
      let t ← t.resize fuel
      return (none, t)
    else return (none, t)

/-- `HandleTable::remove`. -/
def remove (fuel : ℕ) (t : LinkedTable ν) (key : CacheKey) (hash : UInt32) :
    Option (Option ℕ × LinkedTable ν) := do
  let ptr ← t.findPointer fuel key hash
  match ← t.list.read ptr with
  | none => return (none, t)
  | some result =>
    return (some result,
      { t with list := t.list.write ptr (t.list.next result), elems := t.elems - 1 })

end LinkedTable

/-! ## Sequences of calls -/

inductive TableCall (ν : Type)
  | insert (h : LRUHandle ν)
  | lookup (key : CacheKey) (hash : UInt32)
  | remove (key : CacheKey) (hash : UInt32)

namespace LinkedTable

/-- A call, with the handle that it returns. -/
def call (fuel : ℕ) (t : LinkedTable ν) : TableCall ν → Option (Option ℕ × LinkedTable ν)
  | .insert h => t.insert fuel h
  | .lookup key hash => (t.lookup fuel key hash).map fun r => (r, t)
  | .remove key hash => t.remove fuel key hash

def run (fuel : ℕ) : LinkedTable ν → List (TableCall ν) → Option (List (Option ℕ) × LinkedTable ν)
  | t, [] => some ([], t)
  | t, c :: cs => do
    let (r, t) ← t.call fuel c
    let (rs, t) ← t.run fuel cs
    return (r :: rs, t)

/-- The calls on a new table. -/
def session (fuel : ℕ) (nextHash : ℕ → Option ℕ) (handle : ℕ → LRUHandle ν)
    (calls : List (TableCall ν)) : Option (List (Option ℕ) × LinkedTable ν) := do
  let t ← new fuel nextHash handle
  t.run fuel calls

end LinkedTable

end LruCache

end CppEtudes
