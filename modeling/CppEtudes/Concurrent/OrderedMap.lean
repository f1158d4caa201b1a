import CppEtudes.Concurrent.Sequential
import Mathlib.Data.BitVec
import Mathlib.Data.List.AList

/-!
# The list as a map

A single thread sees the lock-free list as a finite map from keys to
nodes and their values. Each call answers as the map does, and leaves a
list in the order of the keys that holds what the map then holds; so do
sequences of calls. The address of a new node may be any that is not in
the list: that of a deleted node as well.
-/

namespace CppEtudes

namespace Concurrent

/-- **The map**: for each key that is there its node and the value. -/
abbrev NodeMap := AList fun _ : ℕ => ℕ × ℕ

namespace NodeMap

/-- One call on the map. -/
def call (map : NodeMap) : ListCall → NodeMap × Result
  | .insert node key value =>
    match map.lookup key with
    | none => (map.insert key (node, value), ⟨true, none, none⟩)
    | some (existNode, _) => (map, ⟨false, some existNode, none⟩)
  | .remove key => (map.erase key, ⟨(map.lookup key).isSome, none, none⟩)
  | .search key =>
    match map.lookup key with
    | none => (map, ⟨false, none, none⟩)
    | some (node, value) => (map, ⟨true, some node, some value⟩)

/-- A sequence of calls on the map. -/
def run : List ListCall → NodeMap → NodeMap × List Result
  | [], map => (map, [])
  | c :: calls, map =>
    let (map, result) := map.call c
    let (map, results) := run calls map
    (map, result :: results)

/-- A new node gets an address that no node in the map has. -/
def Allocates (map : NodeMap) : ListCall → Prop
  | .insert node _ _ => ∀ e ∈ map.entries, e.2.1 ≠ node
  | .remove _ => True
  | .search _ => True

/-- So it is for every call of a sequence. -/
def AllocatesAll : List ListCall → NodeMap → Prop
  | [], _ => True
  | c :: calls, map => map.Allocates c ∧ AllocatesAll calls (map.call c).1

instance decidableAllocates (map : NodeMap) : ∀ c, Decidable (map.Allocates c)
  | .insert node _ _ => inferInstanceAs (Decidable (∀ e ∈ map.entries, e.2.1 ≠ node))
  | .remove _ => inferInstanceAs (Decidable True)
  | .search _ => inferInstanceAs (Decidable True)

instance decidableAllocatesAll : ∀ calls map, Decidable (AllocatesAll calls map)
  | [], _ => inferInstanceAs (Decidable True)
  | c :: calls, map =>
    have := decidableAllocatesAll calls (map.call c).1
    inferInstanceAs (Decidable (map.Allocates c ∧ AllocatesAll calls (map.call c).1))

end NodeMap

/-- **A list holds a map**: it is at rest, and its nodes are those of the
map. -/
structure HoldsMap {τ : Type} (m : Memory τ) (nodes : List ℕ) (map : NodeMap) : Prop where
  listed : Listed m nodes
  lookup : ∀ k n v, map.lookup k = some (n, v) ↔ n ∈ nodes ∧ m.key n = k ∧ m.value n = v

namespace HoldsMap

variable {τ : Type} {m m' : Memory τ} {nodes nodes' : List ℕ} {map : NodeMap} {k n v : ℕ}

theorem empty [Zero τ] : HoldsMap (Memory.new : Memory τ) [] ∅ where
  listed := ⟨rfl, List.Pairwise.nil, fun _ _ => rfl, fun _ ha => absurd ha List.not_mem_nil⟩
  lookup k n v := iff_of_false (by simp) fun h => absurd h.1 List.not_mem_nil

variable (h : HoldsMap m nodes map)
include h

theorem key_ne (hk : map.lookup k = none) (a : ℕ) (ha : a ∈ nodes) : m.key a ≠ k := by
  intro hak
  have hlookup := (h.lookup k a (m.value a)).2 ⟨ha, hak, rfl⟩
  rw [hk] at hlookup
  exact nomatch hlookup

theorem not_mem (hn : ∀ e ∈ map.entries, e.2.1 ≠ n) : n ∉ nodes := by
  intro hmem
  have hlookup := (h.lookup (m.key n) n (m.value n)).2 ⟨hmem, rfl, rfl⟩
  exact hn _ (AList.mem_lookup_iff.1 hlookup) rfl

/-- A list of the same nodes, with the keys and values they had. -/
theorem congr (hlisted : Listed m' nodes) (hkey : ∀ a ∈ nodes, m'.key a = m.key a)
    (hvalue : ∀ a ∈ nodes, m'.value a = m.value a) : HoldsMap m' nodes map := by
  refine ⟨hlisted, fun k n v => (h.lookup k n v).trans (and_congr_right fun hn => ?_)⟩
  rw [hkey n hn, hvalue n hn]

theorem newNodeAt [Zero τ] (hn : n ∉ nodes) (k v : ℕ) : HoldsMap (m.newNodeAt n k v) nodes map :=
  h.congr (h.listed.newNodeAt hn k v)
    (fun _ ha => Function.update_of_ne (ne_of_mem_of_not_mem ha hn) _ _)
    (fun _ ha => Function.update_of_ne (ne_of_mem_of_not_mem ha hn) _ _)

/-- The node `n` is put in. -/
theorem insert (hk : map.lookup (m.key n) = none) (hlinks : Relinked m m' nodes')
    (hmem : ∀ a, a ∈ nodes' ↔ a ∈ nodes ∨ a = n) :
    HoldsMap m' nodes' (map.insert (m.key n) (n, m.value n)) := by
  refine ⟨hlinks.listed, fun k a v => ?_⟩
  rw [hmem, hlinks.key, hlinks.value]
  rcases eq_or_ne k (m.key n) with rfl | hne
  · rw [AList.lookup_insert, Option.some.injEq, Prod.mk.injEq]
    refine ⟨?_, ?_⟩
    · rintro ⟨rfl, rfl⟩
      exact ⟨Or.inr rfl, rfl, rfl⟩
    · rintro ⟨ha | rfl, hkey, hvalue⟩
      · exact absurd hkey (h.key_ne hk a ha)
      · exact ⟨rfl, hvalue⟩
  · rw [AList.lookup_insert_ne hne, h.lookup]
    refine and_congr_left fun hkey => ⟨Or.inl, fun ha => ha.resolve_right ?_⟩
    rintro rfl
    exact hne hkey.1.symm

/-- The node `n` is taken out. -/
theorem erase (hn : n ∈ nodes) (hlinks : Relinked m m' nodes')
    (hmem : ∀ a, a ∈ nodes' ↔ a ∈ nodes ∧ a ≠ n) : HoldsMap m' nodes' (map.erase (m.key n)) := by
  refine ⟨hlinks.listed, fun k a v => ?_⟩
  rw [hmem, hlinks.key, hlinks.value]
  rcases eq_or_ne k (m.key n) with rfl | hne
  · rw [AList.lookup_erase]
    refine iff_of_false (by simp) ?_
    rintro ⟨⟨ha, hne⟩, hkey, -⟩
    exact hne (h.listed.eq_of_key ha hn hkey)
  · rw [AList.lookup_erase_ne hne, h.lookup]
    refine and_congr_left fun hkey => ⟨fun ha => ⟨ha, ?_⟩, And.left⟩
    rintro rfl
    exact hne hkey.1.symm

variable [DecidableEq τ] [Zero τ] [One τ] [Add τ]

/-! ## Calls -/

theorem call_insert (hn : n ∉ nodes) :
    ∃ m' nodes', Returns (fun fuel => m.call fuel (.insert n k v))
        (m', (map.call (.insert n k v)).2) ∧
      HoldsMap m' nodes' (map.call (.insert n k v)).1 := by
  have hnew := h.newNodeAt hn k v
  have hkey : (m.newNodeAt n k v).key n = k := Function.update_self ..
  have hvalue : (m.newNodeAt n k v).value n = v := Function.update_self ..
  rcases hlookup : map.lookup k with - | ⟨a, v'⟩
  · have habsent : map.lookup ((m.newNodeAt n k v).key n) = none := by rw [hkey, hlookup]
    obtain ⟨m', nodes', hret, hlinks, hmem⟩ := hnew.listed.returns_insertNode hn
      (Nat.lt_of_lt_of_le (Nat.lt_succ_self n) (le_max_right ..)) (Or.inl rfl)
      (hnew.key_ne habsent)
    have hmap := hnew.insert habsent hlinks hmem
    rw [hkey, hvalue] at hmap
    simp only [NodeMap.call, hlookup]
    exact ⟨m', nodes', hret, hmap⟩
  · obtain ⟨ha, hak, -⟩ := (hnew.lookup k a v').1 hlookup
    simp only [NodeMap.call, hlookup]
    exact ⟨_, nodes, hnew.listed.returns_insertNode_of_mem (Or.inl rfl) ha (hak.trans hkey.symm), hnew⟩

theorem call_remove :
    ∃ m' nodes', Returns (fun fuel => m.call fuel (.remove k)) (m', (map.call (.remove k)).2) ∧
      HoldsMap m' nodes' (map.call (.remove k)).1 := by
  rcases hlookup : map.lookup k with - | ⟨a, v⟩
  · have herase : map.erase k = map :=
      AList.ext (List.kerase_of_notMem_keys (AList.lookup_eq_none.1 hlookup))
    simp only [NodeMap.call, hlookup, herase]
    exact ⟨m, nodes, h.listed.returns_remove_of_absent (Or.inl rfl) (h.key_ne hlookup), h⟩
  · obtain ⟨ha, rfl, -⟩ := (h.lookup k a v).1 hlookup
    obtain ⟨m', nodes', hret, hlinks, hmem⟩ := h.listed.returns_remove (Or.inl rfl) ha rfl
    simp only [NodeMap.call, hlookup]
    exact ⟨m', nodes', hret, h.erase ha hlinks hmem⟩

theorem call_search :
    Returns (fun fuel => m.call fuel (.search k)) (m, (map.call (.search k)).2) ∧
      (map.call (.search k)).1 = map := by
  rcases hlookup : map.lookup k with - | ⟨a, v⟩
  · simp only [NodeMap.call, hlookup]
    exact ⟨h.listed.returns_search_of_absent (Or.inl rfl) (h.key_ne hlookup), trivial⟩
  · obtain ⟨ha, hak, rfl⟩ := (h.lookup k a v).1 hlookup
    simp only [NodeMap.call, hlookup]
    exact ⟨h.listed.returns_search (Or.inl rfl) ha hak, trivial⟩

/-- **A call** answers as the map does. -/
theorem call {c : ListCall} (hc : map.Allocates c) :
    ∃ m' nodes', Returns (fun fuel => m.call fuel c) (m', (map.call c).2) ∧
      HoldsMap m' nodes' (map.call c).1 := by
  rcases c with ⟨n, k, v⟩ | k | k
  · exact h.call_insert (h.not_mem hc)
  · exact h.call_remove
  · obtain ⟨hret, hmap⟩ := h.call_search (k := k)
    exact ⟨m, nodes, hret, hmap.symm ▸ h⟩

/-- **A sequence of calls** answers as the map does. -/
theorem run {calls : List ListCall} (hcalls : NodeMap.AllocatesAll calls map) :
    ∃ m' nodes', Returns (fun fuel => Memory.run fuel calls m) (m', (NodeMap.run calls map).2) ∧
      HoldsMap m' nodes' (NodeMap.run calls map).1 := by
  induction calls generalizing m nodes map with
  | nil => exact ⟨m, nodes, Returns.const _, h⟩
  | cons c calls ih =>
    obtain ⟨m₁, nodes₁, hret₁, h₁⟩ := h.call hcalls.1
    obtain ⟨m₂, nodes₂, hret₂, h₂⟩ := ih h₁ hcalls.2
    exact ⟨m₂, nodes₂, Returns.bind hret₁ (Returns.bind hret₂ (Returns.const _)), h₂⟩

end HoldsMap

/-- **The list is a map in the order of the keys**, for one thread. From
the empty list on every sequence of calls returns, with the answers of
the map, and leaves the nodes of the map behind: in strict order, and
without a mark. -/
theorem Memory.returns_run {τ : Type} [DecidableEq τ] [Zero τ] [One τ] [Add τ]
    (calls : List ListCall) (hcalls : NodeMap.AllocatesAll calls ∅) :
    ∃ (m : Memory τ) (nodes : List ℕ),
      Returns (fun fuel => Memory.run fuel calls .new) (m, (NodeMap.run calls ∅).2) ∧
        HoldsMap m nodes (NodeMap.run calls ∅).1 :=
  HoldsMap.empty.run hcalls

/-- With the tags of the source; the last node is made where the first
one has been. -/
theorem Memory.returns_run_reuse :
    ∃ (m : Memory (BitVec 16)) (nodes : List ℕ),
      Returns (fun fuel => Memory.run fuel [.insert 7 5 50, .insert 3 2 20, .insert 9 5 55,
          .search 5, .remove 5, .insert 7 4 40, .search 5, .search 4] .new)
        (m, [⟨true, none, none⟩, ⟨true, none, none⟩, ⟨false, some 7, none⟩,
          ⟨true, some 7, some 50⟩, ⟨true, none, none⟩, ⟨true, none, none⟩, ⟨false, none, none⟩,
          ⟨true, some 7, some 40⟩]) ∧
        Listed m nodes := by
  obtain ⟨m, nodes, hret, hholds⟩ := Memory.returns_run (τ := BitVec 16)
    [.insert 7 5 50, .insert 3 2 20, .insert 9 5 55, .search 5, .remove 5, .insert 7 4 40,
      .search 5, .search 4] (by decide)
  exact ⟨m, nodes, hret, hholds.listed⟩

end Concurrent

end CppEtudes
