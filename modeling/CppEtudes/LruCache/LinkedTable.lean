import CppEtudes.Common.Fuel
import CppEtudes.LruCache.HandleTable
import CppEtudes.LruCache.Model.LinkedTable

/-!
# The table in memory and the table of chains

The calls on the table in memory do what they do on the list of its
chains (`Refines.insert`, `Refines.remove`). `_find_pointer` parts a chain
at the handle it looks for, and what is written through the pointer it
returns replaces the second part. While `_resize` runs, each handle hangs
on one of the two arrays: the handles not yet moved still have the links
they had.
-/

namespace CppEtudes

namespace LruCache

open Buckets Links

variable {ν : Type}

namespace LinkedTable

/-- **A table in memory** and the chains it holds. -/
structure Refines (lt : LinkedTable ν) (t : HandleTable ν) : Prop where
  length : lt.length.toNat = t.list.length
  elems : lt.elems = t.elems
  holds : lt.list.Holds LRUHandle.addr t.list
  handle : ∀ e ∈ t.entries, lt.handle e.addr = e

variable {lt lt' : LinkedTable ν} {t t' : HandleTable ν} {e : LRUHandle ν}
variable {key : CacheKey} {hash newLength : UInt32} {i : ℕ}

theorem home_eq {n : UInt32} (hn : 0 < n.toNat) (hash : UInt32) (key : CacheKey) :
    (hash &&& (n - 1)).toNat = (handleHashing (ν := ν)).home n.toNat (hash, key) := by
  have hone : (1 : UInt32) ≤ n := UInt32.le_iff_toNat_le.2 hn
  rw [UInt32.toNat_and, UInt32.toNat_sub_of_le _ _ hone]
  rfl

/-! ## Finding a pointer -/

/-- **The loop of `_find_pointer`** stops where the chain has the key, or
at its end. -/
theorem returns_findPointerFrom (hi : i < lt.list.heads.length) (key : CacheKey) (hash : UInt32)
    (l : List (LRUHandle ν)) : ∀ {p : Option ℕ}, Chain (lt.list.links i) p (l.map LRUHandle.addr) →
      (∀ e ∈ l, lt.handle e.addr = e) →
      ∃ l₁ l₂, l = l₁ ++ l₂ ∧ (∀ e ∈ l₁, handleHashing.key e ≠ (hash, key)) ∧
        (∀ e ∈ l₂.head?, handleHashing.key e = (hash, key)) ∧
        Returns (fun fuel => lt.findPointerFrom key hash fuel (place i p))
          (place i (last p (l₁.map LRUHandle.addr))) := by
  induction l with
  | nil =>
    intro p h _
    refine ⟨[], [], rfl, nofun, nofun, (Returns.const _).succ fun fuel => ?_⟩
    rw [findPointerFrom, read_place hi, h.next_eq]
    rfl
  | cons e l ih =>
    intro p h hhandle
    have he := hhandle e List.mem_cons_self
    have hread : lt.list.read (place i p) = some (some e.addr) :=
      (read_place hi p).trans (congrArg some h.1)
    by_cases hkey : handleHashing.key e = (hash, key)
    · refine ⟨[], e :: l, rfl, nofun, fun y hy => ?_, (Returns.const _).succ fun fuel => ?_⟩
      · rwa [← Option.some.inj hy]
      · rw [findPointerFrom, hread]
        dsimp only [Option.bind_eq_bind, Option.bind_some]
        obtain ⟨hhash, hk⟩ := HandleTable.key_eq_iff.1 hkey
        rw [he, if_neg (by rw [hhash, hk]; simp)]
        rfl
    · obtain ⟨l₁, l₂, rfl, hl₁, hl₂, hreturns⟩ := ih h.2 fun x hx =>
        hhandle x (List.mem_cons_of_mem _ hx)
      refine ⟨e :: l₁, l₂, rfl, ?_, hl₂, hreturns.succ fun fuel => ?_⟩
      · intro x hx
        rcases List.mem_cons.1 hx with rfl | hx
        · exact hkey
        · exact hl₁ x hx
      · rw [findPointerFrom, hread]
        dsimp only [Option.bind_eq_bind, Option.bind_some]
        have hdiffer : e.hash ≠ hash ∨ key ≠ e.key := by
          by_contra hsame
          rw [not_or, not_not, not_not] at hsame
          exact hkey (HandleTable.key_eq_iff.2 ⟨hsame.1, hsame.2.symm⟩)
        rw [he, if_pos hdiffer]
        rfl

/-- **`_find_pointer`** parts the chain of the key. -/
theorem Refines.findPointer (h : Refines lt t) (hpos : 0 < t.list.length) (key : CacheKey)
    (hash : UInt32) :
    ∃ i l₁ l₂, i = (handleHashing (ν := ν)).home t.list.length (hash, key) ∧
      t.list.getD i [] = l₁ ++ l₂ ∧ (∀ e ∈ l₁, handleHashing.key e ≠ (hash, key)) ∧
      t.lookup key hash = l₂.head? ∧
      Returns (fun fuel => lt.findPointer fuel key hash)
        (place i (last none (l₁.map LRUHandle.addr))) ∧
      lt.list.read (place i (last none (l₁.map LRUHandle.addr))) =
        some (l₂.head?.map LRUHandle.addr) := by
  obtain ⟨i, hi⟩ : ∃ i, i = (handleHashing (ν := ν)).home t.list.length (hash, key) := ⟨_, rfl⟩
  have hlt : i < lt.list.heads.length := by
    rw [h.holds.length, hi]
    exact handleHashing.home_lt hpos
  obtain ⟨l₁, l₂, hc, hl₁, hl₂, hreturns⟩ := returns_findPointerFrom hlt key hash _
    (h.holds.chain i) fun e he => h.handle e (Chains.mem_flatten_iff.2 ⟨i, he⟩)
  refine ⟨i, l₁, l₂, hi, hc, hl₁, ?_, ?_, ?_⟩
  · have hnone : l₁.find? (fun x => handleHashing.key x = (hash, key)) = none :=
      List.find?_eq_none.2 fun e he => by simpa using hl₁ e he
    rw [HandleTable.lookup, Chains.lookup, ← hi, hc, List.find?_append, hnone, Option.none_or]
    rcases l₂ with - | ⟨y, l₂⟩
    · rfl
    · exact List.find?_cons_of_pos (decide_eq_true (hl₂ y rfl))
  · unfold LinkedTable.findPointer
    rw [home_eq (ν := ν) (h.length ▸ hpos) hash key, h.length, ← hi]
    exact hreturns
  · rw [read_place hlt, (h.holds.chain_drop hc).next_eq, List.head?_map]

theorem Refines.lookup (h : Refines lt t) (hpos : 0 < t.list.length) (key : CacheKey)
    (hash : UInt32) : Returns (fun fuel => lt.lookup fuel key hash)
      ((t.lookup key hash).map LRUHandle.addr) := by
  obtain ⟨i, l₁, l₂, -, -, -, hlookup, hptr, hread⟩ := h.findPointer hpos key hash
  refine hptr.bind (g := fun ptr _ => lt.list.read ptr) ⟨0, fun _ _ => ?_⟩
  rw [hread, hlookup]

/-! ## Removal -/

/-- The link of the first handle behind a place. -/
theorem Refines.next_head (h : Refines lt t) {l₁ tail : List (LRUHandle ν)} {y : LRUHandle ν}
    (hc : t.list.getD i [] = l₁ ++ y :: tail) :
    lt.list.next y.addr = tail.head?.map LRUHandle.addr :=
  (h.holds.chain_drop hc).2.next_eq.trans List.head?_map

/-- **`remove`** unlinks the handle of the key. -/
theorem Refines.remove (h : Refines lt t) (hvalid : t.Valid) (key : CacheKey) (hash : UInt32) :
    ∃ lt', Returns (fun fuel => lt.remove fuel key hash)
        ((t.remove key hash).1.map LRUHandle.addr, lt') ∧
      Refines lt' (t.remove key hash).2 := by
  obtain ⟨i, l₁, l₂, hi, hc, hl₁, hlookup, ⟨n, hptr⟩, hread⟩ :=
    h.findPointer hvalid.chains.pos key hash
  dsimp only at hptr
  have hlt : i < t.list.length := hi ▸ handleHashing.home_lt hvalid.chains.pos
  rcases l₂ with - | ⟨result, tail⟩
  · have hremove : t.remove key hash = (none, t) := by
      rw [HandleTable.remove, hlookup]
      rfl
    rw [hremove]
    refine ⟨lt, ⟨n, fun fuel hfuel => ?_⟩, h⟩
    dsimp only [LinkedTable.remove]
    rw [hptr fuel hfuel, Option.bind_eq_bind, Option.bind_some, hread]
    rfl
  · have hremove : t.remove key hash =
        (some result, ⟨t.list.erase handleHashing (hash, key), t.elems - 1⟩) := by
      rw [HandleTable.remove, hlookup]
      rfl
    have hkey := (hvalid.chains.lookup_eq_some_iff.1 hlookup).2
    have hperm := hvalid.chains.erase_perm_of_some hlookup
    have hnodup := h.holds.nodup
    rw [(hperm.map _).nodup_iff, List.map_cons] at hnodup
    have herase : (l₁ ++ ([result] ++ tail)).eraseP
        (fun x => handleHashing.key x = (hash, key)) = l₁ ++ tail := by
      rw [List.eraseP_append_right _ (by simpa using hl₁)]
      exact congrArg (l₁ ++ ·) (List.eraseP_cons_of_pos (decide_eq_true hkey))
    have hholds : (lt.list.write (place i (last none (l₁.map LRUHandle.addr)))
        (tail.head?.map LRUHandle.addr)).Holds LRUHandle.addr
          (t.list.erase handleHashing (hash, key)) := by
      rw [Chains.erase, ← hi]
      refine h.holds.cut hlt hc herase ?_
      rw [Chains.erase, ← hi] at hnodup
      exact (List.nodup_cons.1 hnodup).2
    rw [hremove]
    refine ⟨{ lt with
      list := lt.list.write (place i (last none (l₁.map LRUHandle.addr)))
        (tail.head?.map LRUHandle.addr)
      elems := lt.elems - 1 }, ⟨n, fun fuel hfuel => ?_⟩, ⟨?_, ?_, hholds, fun e he => ?_⟩⟩
    · dsimp only [LinkedTable.remove]
      rw [hptr fuel hfuel, Option.bind_eq_bind, Option.bind_some, hread, ← h.next_head hc]
      rfl
    · rw [Chains.length_erase]
      exact h.length
    · exact congrArg (· - 1) h.elems
    · exact h.handle e (hperm.mem_iff.2 (List.mem_cons_of_mem _ he))

/-! ## Resizing -/

/-- **The inner loop of `_resize`** pushes the handles of a chain on their
new ones; the links of other handles stay. -/
theorem returns_moveChain (hpos : 0 < newLength.toNat) (l : List (LRUHandle ν)) :
    ∀ {m : Moved} {chains : Chains (LRUHandle ν)} {h : Option ℕ},
      Chain (linksFrom h m.list.next) none (l.map LRUHandle.addr) →
      m.list.Holds LRUHandle.addr chains → chains.length = newLength.toNat →
      ((l ++ chains.flatten).map LRUHandle.addr).Nodup → (∀ e ∈ l, lt.handle e.addr = e) →
      ∃ m', Returns (fun fuel => lt.moveChain newLength fuel m h) m' ∧
        m'.list.Holds LRUHandle.addr (l.foldl (Chains.push handleHashing) chains) ∧
        m'.count = m.count + UInt32.ofNat l.length ∧
        ∀ a, a ∉ l.map LRUHandle.addr → m'.list.next a = m.list.next a := by
  induction l with
  | nil =>
    intro m chains h hchain hholds _ _ _
    obtain rfl : h = none := hchain
    exact ⟨m, (Returns.const _).succ fun _ => rfl, hholds, (UInt32.add_zero _).symm, fun _ _ => rfl⟩
  | cons e l ih =>
    intro m chains h hchain hholds hlen hnd hhandle
    obtain ⟨rfl, hrest⟩ := chain_linksFrom_cons.1 hchain
    have he := hhandle e List.mem_cons_self
    obtain ⟨i, hi⟩ : ∃ i, i = handleHashing.home chains.length (handleHashing.key e) := ⟨_, rfl⟩
    have hlt : i < chains.length := hi ▸ handleHashing.home_lt (hlen ▸ hpos)
    have hperm : (chains.push handleHashing e).flatten.Perm (e :: chains.flatten) :=
      Chains.push_perm (hlen ▸ hpos)
    have hnd' : ((l ++ (chains.push handleHashing e).flatten).map LRUHandle.addr).Nodup := by
      rw [(((hperm.append_left l).trans List.perm_middle).map _).nodup_iff]
      exact hnd
    -- the handle goes in front of its new chain
    obtain ⟨first, hfirst⟩ : ∃ first, first = (chains.getD i []).head?.map LRUHandle.addr := ⟨_, rfl⟩
    obtain ⟨list, hlist⟩ : ∃ list, list =
      (m.list.write (.next e.addr) first).write (place i none) (some e.addr) := ⟨_, rfl⟩
    have hput : list.Holds LRUHandle.addr (chains.push handleHashing e) := by
      have hc : chains.getD i [] = [] ++ ([] ++ chains.getD i []) := rfl
      rw [List.map_append, Chains.push, ← hi] at hnd'
      rw [hlist, hfirst, Chains.push, ← hi]
      exact hholds.put (f := (e :: ·)) hlt hc rfl (List.nodup_append.1 hnd').2.1
    have hnext (a : ℕ) (ha : a ≠ e.addr) : list.next a = m.list.next a := by
      rw [hlist]
      exact Function.update_of_ne ha _ _
    have hne (x : LRUHandle ν) (hx : x ∈ l) : x.addr ≠ e.addr := by
      rw [List.cons_append, List.map_cons, List.nodup_cons] at hnd
      intro heq
      exact hnd.1 (heq ▸ List.mem_map_of_mem (List.mem_append_left _ hx))
    have hrest' : Chain (linksFrom (m.list.next e.addr) list.next) none
        (l.map LRUHandle.addr) := by
      refine hrest.retarget hrest.next_eq fun a ha => ?_
      obtain ⟨x, hx, rfl⟩ := List.mem_map.1 ha
      exact hnext _ (hne x hx)
    obtain ⟨m', hreturns, hholds', hcount, hsame⟩ := ih (m := ⟨list, m.count + 1⟩) hrest' hput
      (Chains.length_push.trans hlen) hnd' fun x hx => hhandle x (List.mem_cons_of_mem _ hx)
    refine ⟨m', hreturns.succ fun fuel => ?_, hholds', ?_, fun a ha => ?_⟩
    · have hread : m.list.read (.head i) = some first := by
        rw [hfirst, ← List.head?_map, ← (hholds.chain i).next_eq]
        exact read_place (hholds.length ▸ hlt) none
      have hptr : (e.hash &&& (newLength - 1)).toNat = i := by
        rw [home_eq (ν := ν) hpos e.hash e.key, hi, hlen]
        rfl
      rw [moveChain, he, hptr, hread, hlist]
      rfl
    · rw [hcount, List.length_cons, UInt32.ofNat_add, UInt32.add_assoc, UInt32.add_comm 1]
      rfl
    · rw [List.map_cons, List.mem_cons, not_or] at ha
      rw [hsame a ha.2]
      exact hnext a ha.1

/-- **The outer loop of `_resize`**, with the first `k` chains moved. -/
theorem Refines.returns_moveSlots (h : Refines lt t) (hpos : 0 < newLength.toNat) (k : ℕ)
    (hk : k ≤ t.list.length) :
    ∃ m, Returns (fun fuel => (List.range k).foldlM (lt.moveSlot fuel newLength)
        ⟨⟨List.replicate newLength.toNat none, lt.list.next⟩, 0⟩) m ∧
      m.list.Holds LRUHandle.addr ((t.list.take k).flatten.foldl (Chains.push handleHashing)
        (List.replicate newLength.toNat [])) ∧
      m.count = UInt32.ofNat (t.list.take k).flatten.length ∧
      ∀ a, a ∉ (t.list.take k).flatten.map LRUHandle.addr → m.list.next a = lt.list.next a := by
  induction k with
  | zero =>
    refine ⟨_, Returns.const _, ⟨?_, fun i => ?_, ?_⟩, rfl, fun _ _ => rfl⟩
    · simp
    · simp [Chain, links, linksFrom]
    · simp
  | succ k ih =>
    obtain ⟨m, hreturns, hholds, hcount, hsame⟩ := ih (Nat.le_of_succ_le hk)
    have hk' : k < lt.list.heads.length := h.holds.length ▸ hk
    have htake : (t.list.take (k + 1)).flatten = (t.list.take k).flatten ++ t.list.getD k [] := by
      rw [List.take_succ_eq_append_getElem hk, List.flatten_append, List.flatten_singleton,
        List.getD_eq_getElem _ _ hk]
    have hperm : ((t.list.take k).flatten.foldl (Chains.push handleHashing)
        (List.replicate newLength.toNat [])).flatten.Perm (t.list.take k).flatten := by
      have hall := Chains.foldl_push_perm (H := handleHashing)
        (t := List.replicate newLength.toNat []) (t.list.take k).flatten (by simpa using hpos)
      simpa using hall
    have hnd : ((t.list.getD k [] ++ (t.list.take k).flatten).map LRUHandle.addr).Nodup := by
      have hall := h.holds.nodup
      rw [← List.take_append_drop (k + 1) t.list, List.flatten_append, List.map_append, htake] at hall
      rw [(List.perm_append_comm.map _).nodup_iff]
      exact (List.nodup_append.1 hall).1
    have hchain : Chain (linksFrom (lt.list.heads.getD k none) m.list.next) none
        ((t.list.getD k []).map LRUHandle.addr) := by
      refine (h.holds.chain k).retarget (h.holds.chain k).next_eq fun a ha => hsame a ?_
      rw [List.map_append] at hnd
      exact fun ha' => (List.nodup_append.1 hnd).2.2 a ha a ha' rfl
    obtain ⟨m', hreturns', hholds', hcount', hsame'⟩ := returns_moveChain hpos _ hchain
      hholds (by rw [Chains.length_foldl_push, List.length_replicate])
      (by rwa [((hperm.append_left _).map _).nodup_iff])
      fun e he => h.handle e (Chains.mem_flatten_iff.2 ⟨k, he⟩)
    refine ⟨m', ?_, ?_, ?_, fun a ha => ?_⟩
    · have hslot : Returns (fun fuel => lt.moveSlot fuel newLength m k) m' := by
        unfold moveSlot
        rw [List.getElem?_eq_getElem hk', ← List.getD_eq_getElem _ none hk']
        exact hreturns'
      have hboth := hreturns.bind (g := fun m fuel => lt.moveSlot fuel newLength m k) hslot
      refine cast (congrArg₂ Returns (funext fun fuel => ?_) rfl) hboth
      rw [List.range_succ, List.foldlM_append]
      congr 1
      funext m
      rw [List.foldlM_cons]
      exact (bind_pure _).symm
    · rw [htake, List.foldl_append]
      exact hholds'
    · rw [hcount', hcount, htake, List.length_append, UInt32.ofNat_add]
    · rw [htake, List.map_append, List.mem_append, not_or] at ha
      rw [hsame' a ha.2, hsame a ha.1]

theorem growLength_of_le {elems n m : UInt32} {rounds : ℕ}
    (h : HandleTable.growLength elems rounds n = some m) :
    ∀ fuel, rounds ≤ fuel → HandleTable.growLength elems fuel n = some m := by
  induction rounds generalizing n with
  | zero => exact nomatch h
  | succ rounds ih =>
    rintro (- | fuel) hfuel
    · exact absurd hfuel (Nat.not_succ_le_zero _)
    · rw [HandleTable.growLength] at h ⊢
      split_ifs at h ⊢ with hlt
      · exact ih h fuel (Nat.le_of_succ_le_succ hfuel)
      · exact h

/-- **`_resize`** hangs the handles on new chains. -/
theorem Refines.resize (h : Refines lt t) (ht : t.resize = some t') :
    ∃ lt', Returns (fun fuel => lt.resize fuel) lt' ∧ Refines lt' t' := by
  obtain ⟨newLength, hgrow, ht⟩ := Option.bind_eq_some_iff.1 ht
  obtain ⟨⟨j, hj⟩, -⟩ := HandleTable.exists_growLength_eq (j := 2) rfl 31 hgrow
  have hpos : 0 < newLength.toNat := hj ▸ Nat.two_pow_pos j
  obtain ⟨m, ⟨n, hn⟩, hholds, hcount, -⟩ := h.returns_moveSlots hpos t.list.length (Nat.le_refl _)
  rw [List.take_length] at hholds hcount
  dsimp only at ht hn
  split_ifs at ht with hmatch
  obtain rfl := Option.some.inj ht
  refine ⟨{ lt with list := m.list, length := newLength }, ⟨31 + n, fun fuel hfuel => ?_⟩,
    ⟨?_, h.elems, hholds, fun e he => h.handle e ?_⟩⟩
  · have hsame : ¬ lt.elems ≠ m.count := by
      rw [h.elems, hcount]
      exact hmatch
    dsimp only [LinkedTable.resize]
    rw [growLength_of_le (h.elems ▸ hgrow) fuel (by omega), Option.bind_eq_bind, Option.bind_some,
      h.length, hn fuel (by omega), Option.bind_eq_bind, Option.bind_some, if_neg hsame]
    rfl
  · exact (Chains.length_rehash _).symm
  · exact (Chains.rehash_perm hpos).mem_iff.1 he

/-- **The constructor** makes an empty table. -/
theorem returns_new (nextHash : ℕ → Option ℕ) (handle : ℕ → LRUHandle ν) :
    ∃ lt, Returns (fun fuel => new fuel nextHash handle) lt ∧ Refines lt .empty := by
  have hnone : Refines ⟨0, 0, ⟨[], nextHash⟩, handle⟩ ⟨[], 0⟩ :=
    ⟨rfl, rfl, ⟨rfl, fun _ => rfl, List.nodup_nil⟩, nofun⟩
  exact hnone.resize rfl

/-! ## Insertion -/

/-- The handle is filled in at its address. -/
theorem Refines.fill (h : Refines lt t) (hapart : ∀ x ∈ t.entries, x.addr = e.addr → x = e) :
    Refines { lt with handle := Function.update lt.handle e.addr e } t := by
  refine ⟨h.length, h.elems, h.holds, fun x hx => ?_⟩
  dsimp only
  rcases eq_or_ne x.addr e.addr with heq | hne
  · rw [heq, Function.update_self, hapart x hx heq]
  · rw [Function.update_of_ne hne, h.handle x hx]

variable (hvalid : t.Valid) (hapart : ∀ x ∈ t.entries, x.addr = e.addr → x = e)
include hvalid hapart

/-- A handle stays apart from those of other keys. -/
theorem nodup_insert (hnd : (t.entries.map LRUHandle.addr).Nodup) :
    ((t.list.insert handleHashing e).flatten.map LRUHandle.addr).Nodup := by
  rcases hlookup : t.list.lookup handleHashing (handleHashing.key e) with - | y
  · rw [((hvalid.chains.insert_perm_of_none hlookup).map _).nodup_iff, List.map_cons,
      List.nodup_cons]
    refine ⟨fun hmem => ?_, hnd⟩
    obtain ⟨x, hx, haddr⟩ := List.mem_map.1 hmem
    exact hvalid.chains.lookup_eq_none_iff.1 hlookup x hx (congrArg _ (hapart x hx haddr))
  · obtain ⟨rest, hrest, hins⟩ := hvalid.chains.insert_perm_of_some hlookup
    have hkeys := hvalid.chains.keys
    have hy := (hvalid.chains.lookup_eq_some_iff.1 hlookup).2
    have hall : (t.list.flatten.map LRUHandle.addr).Nodup := hnd
    rw [(hrest.map _).nodup_iff, List.map_cons, List.nodup_cons] at hkeys hall
    rw [(hins.map _).nodup_iff, List.map_cons, List.nodup_cons]
    refine ⟨fun hmem => hkeys.1 ?_, hall.2⟩
    obtain ⟨x, hx, haddr⟩ := List.mem_map.1 hmem
    rw [hy, ← hapart x (hrest.mem_iff.2 (List.mem_cons_of_mem _ hx)) haddr]
    exact List.mem_map_of_mem hx

/-- The handle is linked in, in the place of the handle `mid` or where its
chain ends. -/
theorem Refines.put (h : Refines lt t) (he : lt.handle e.addr = e)
    {l₁ mid tail : List (LRUHandle ν)}
    (hi : i = (handleHashing (ν := ν)).home t.list.length (handleHashing.key e))
    (hc : t.list.getD i [] = l₁ ++ (mid ++ tail))
    (hreplace : Chains.replace handleHashing e (l₁ ++ (mid ++ tail)) = l₁ ++ e :: tail)
    (elems : UInt32) :
    Refines { lt with
      list := (lt.list.write (.next e.addr) (tail.head?.map LRUHandle.addr)).write
        (place i (last none (l₁.map LRUHandle.addr))) (some e.addr)
      elems := elems } ⟨t.list.insert handleHashing e, elems⟩ := by
  have hlt : i < t.list.length := hi ▸ handleHashing.home_lt hvalid.chains.pos
  have hnodup := nodup_insert hvalid hapart h.holds.nodup
  refine ⟨?_, rfl, ?_, fun x hx => ?_⟩
  · exact h.length.trans Chains.length_insert.symm
  · rw [Chains.insert, ← hi] at hnodup ⊢
    exact h.holds.put hlt hc hreplace hnodup
  · rcases hvalid.chains.mem_insert_iff.1 hx with rfl | ⟨hx, -⟩
    · exact he
    · exact h.handle x hx

/-- A key that is new: the handle is linked in where its chain ends, and
the table grows where it has more handles than chains. -/
theorem Refines.insert_of_none (h : Refines lt t) (hnone : t.lookup e.key e.hash = none) :
    ∃ lt₁ n, Refines lt₁ ⟨t.list.insert handleHashing e, t.elems + 1⟩ ∧
      ∀ fuel, n ≤ fuel → lt.insert fuel e =
        if (t.list.insert handleHashing e).length < (t.elems + 1).toNat
          then (lt₁.resize fuel).map fun lt' => (none, lt') else some (none, lt₁) := by
  have hfill := h.fill hapart
  have he : Function.update lt.handle e.addr e e.addr = e := Function.update_self ..
  obtain ⟨i, l₁, l₂, hi, hc, hl₁, hlookup, ⟨n, hptr⟩, hread⟩ :=
    hfill.findPointer hvalid.chains.pos e.key e.hash
  obtain rfl : l₂ = [] := List.head?_eq_none_iff.1 (hlookup.symm.trans hnone)
  have hc' : t.list.getD i [] = l₁ ++ ([] ++ []) := hc
  have hreplace : Chains.replace handleHashing e (l₁ ++ ([] ++ [])) = l₁ ++ [e] := by
    rw [List.append_nil, List.append_nil]
    exact Chains.replace_of_none (List.find?_eq_none.2 fun x hx => by
      rw [decide_eq_true_eq]
      exact hl₁ x hx)
  refine ⟨_, n, hfill.put hvalid hapart he hi hc' hreplace (t.elems + 1), fun fuel hfuel => ?_⟩
  have hgrown : lt.length < lt.elems + 1 ↔
      (t.list.insert handleHashing e).length < (t.elems + 1).toNat := by
    rw [UInt32.lt_iff_toNat_lt, h.length, h.elems, Chains.length_insert]
  dsimp only at hptr hread
  dsimp only [LinkedTable.insert]
  rw [hptr fuel hfuel, Option.bind_eq_bind, Option.bind_some, hread]
  dsimp only [Option.bind_eq_bind, Option.bind_some, List.head?_nil, Option.map_none,
    Option.bind_none]
  rw [if_congr hgrown rfl rfl, h.elems, Option.map_eq_bind]
  rfl

/-- **`insert`** puts the handle where its key was, or behind the last one
of its chain. -/
theorem Refines.insert (h : Refines lt t) {old : Option (LRUHandle ν)}
    (ht : t.insert e = some (old, t')) :
    ∃ lt', Returns (fun fuel => lt.insert fuel e) (old.map LRUHandle.addr, lt') ∧
      Refines lt' t' := by
  rcases hx : t.lookup e.key e.hash with - | y
  · rw [HandleTable.insert, hx] at ht
    obtain ⟨lt₁, n, hlt₁, hn⟩ := h.insert_of_none hvalid hapart hx
    dsimp only at ht
    by_cases hover : (t.list.insert handleHashing e).length < (t.elems + 1).toNat
    · rw [if_pos hover] at ht
      obtain ⟨t₁, hresize, heq⟩ := Option.map_eq_some_iff.1 ht
      obtain ⟨rfl, rfl⟩ := Prod.mk.inj heq
      obtain ⟨lt', ⟨k, hk⟩, hrefines⟩ := hlt₁.resize hresize
      refine ⟨lt', ⟨n + k, fun fuel hfuel => ?_⟩, hrefines⟩
      dsimp only at hk ⊢
      rw [hn fuel (by omega), if_pos hover, hk fuel (by omega)]
      rfl
    · rw [if_neg hover] at ht
      obtain ⟨rfl, rfl⟩ := Prod.mk.inj (Option.some.inj ht)
      refine ⟨lt₁, ⟨n, fun fuel hfuel => ?_⟩, hlt₁⟩
      dsimp only
      rw [hn fuel hfuel, if_neg hover]
      rfl
  · rw [HandleTable.insert, hx] at ht
    obtain ⟨rfl, rfl⟩ := Prod.mk.inj (Option.some.inj ht)
    have hfill := h.fill hapart
    have he : Function.update lt.handle e.addr e e.addr = e := Function.update_self ..
    obtain ⟨i, l₁, l₂, hi, hc, hl₁, hlookup, ⟨n, hptr⟩, hread⟩ :=
      hfill.findPointer hvalid.chains.pos e.key e.hash
    obtain ⟨tail, rfl⟩ := List.head?_eq_some_iff.1 (hlookup.symm.trans hx)
    have hc' : t.list.getD i [] = l₁ ++ ([y] ++ tail) := hc
    have hy := (hvalid.chains.lookup_eq_some_iff.1 hx).2
    refine ⟨_, ⟨n, fun fuel hfuel => ?_⟩,
      hfill.put hvalid hapart he hi hc' (Chains.replace_append hl₁ hy) t.elems⟩
    dsimp only at hptr hread
    dsimp only [LinkedTable.insert]
    rw [hptr fuel hfuel, Option.bind_eq_bind, Option.bind_some, hread, ← hfill.next_head hc,
      ← h.elems]
    rfl

end LinkedTable

end LruCache

end CppEtudes
