import CppEtudes.LruCache.Invariant

/-!
# The calls of one shard

Each call of `LRUCache` as a sequence of moves. An eviction, whatever its
policy, drops entries of the LRU list one after the other; `Evicts` says
so once for `_evict_from_lru` and `prune`.
-/

namespace CppEtudes

namespace LruCache

variable {ν : Type} {hash : CacheKey → UInt32} {c c' : LRUCache ν} {e x : LRUHandle ν}
  {hs owned owned' limbo limbo' out : List (LRUHandle ν)}

/-! ## Counting handles -/

theorem toNat_sub_one {r : UInt32} (h : r ≠ 0) : (r - 1).toNat = r.toNat - 1 := by
  have hne : r.toNat ≠ 0 := fun h0 => h (UInt32.toNat_inj.1 h0)
  refine UInt32.toNat_sub_of_le _ _ ?_
  rw [UInt32.le_iff_toNat_le, UInt32.toNat_one]
  omega

theorem outstanding_cons_self : outstanding (e :: hs) e = outstanding hs e + 1 :=
  List.countP_cons_of_pos (by simp)

theorem outstanding_cons_of_ne (h : x.addr ≠ e.addr) :
    outstanding (e :: hs) x = outstanding hs x :=
  List.countP_cons_of_neg (by simpa using h.symm)

theorem outstanding_perm {hs' : List (LRUHandle ν)} (h : hs.Perm hs') :
    outstanding hs e = outstanding hs' e := h.countP_eq _

theorem ne_of_outstanding_eq_zero (h : outstanding hs e = 0) (hx : x ∈ hs) : x ≠ e := by
  rintro rfl
  simpa using List.countP_eq_zero.1 h x hx

/-- Freeing touches the heap alone. -/
@[simp] theorem LRUCache.capacity_freeAll (l : List (LRUHandle ν)) :
    (c.freeAll l).capacity = c.capacity := by
  induction l generalizing c with
  | nil => rfl
  | cons e l ih => exact ih

@[simp] theorem LRUCache.inCache_freeAll (l : List (LRUHandle ν)) :
    (c.freeAll l).inCache = c.inCache := by
  induction l generalizing c with
  | nil => rfl
  | cons e l ih => exact ih

namespace Inv

/-- An entry of the LRU list has no handle. -/
theorem outstanding_of_mem_lru (h : Inv hash c hs owned limbo) (he : e ∈ c.lru) :
    outstanding hs e = 0 := by
  obtain ⟨hown, hb, hr⟩ := (h.mem_lru e).1 he
  have hrefs := h.refs e hown
  rw [hb, hr, UInt32.toNat_one, Bool.toNat_true] at hrefs
  omega

/-! ## Eviction -/

/-- **`_evict_one_entry`** drops an entry of the LRU list. -/
theorem evictOneEntry (h : Inv hash c hs owned limbo) (he : e ∈ c.lru) :
    ∃ rest, owned.Perm (e :: rest) ∧ Inv hash (c.evictOneEntry e) hs rest (e :: limbo) := by
  obtain ⟨rest, hperm, hc⟩ := h.exists_cons (h.mem_owned_of_mem_lru he)
  have hzero := h.outstanding_of_mem_lru he
  have hheap := hc.mem_heap_of_owned List.mem_cons_self
  refine ⟨rest, hperm, hc.drop ⟨rfl, rfl, rfl⟩ (fun a ha => ⟨?_, ?_⟩) (fun _ _ => rfl)
    (fun x hx => ?_) ⟨?_, fun x => hc.mem_lruRemove_iff hheap⟩
    ⟨h.table.remove, fun x => h.mem_remove_iff (h.mem_table_of_mem_lru he)⟩ rfl⟩
  · exact Function.update_of_ne ha _ _
  · exact Function.update_of_ne ha _ _
  · exact List.mem_of_ne_of_mem (ne_of_outstanding_eq_zero hzero hx) (hc.held x hx)
  · exact h.lru_nodup.filter _

end Inv

/-- The entries `out` of the LRU list are evicted one after the other. -/
inductive Evicts : LRUCache ν → LRUCache ν → List (LRUHandle ν) → Prop
  | refl (c : LRUCache ν) : Evicts c c []
  | step {c c' : LRUCache ν} {e : LRUHandle ν} {out : List (LRUHandle ν)} (he : e ∈ c.lru)
      (h : Evicts (c.evictOneEntry e) c' out) : Evicts c c' (e :: out)

namespace Evicts

theorem trans {c₁ c₂ c₃ : LRUCache ν} {out₁ out₂ : List (LRUHandle ν)} (h₁ : Evicts c₁ c₂ out₁)
    (h₂ : Evicts c₂ c₃ out₂) : Evicts c₁ c₃ (out₁ ++ out₂) := by
  induction h₁ with
  | refl => exact h₂
  | step he _ ih => exact Evicts.step he (ih h₂)

/-- **An eviction keeps the invariant.** -/
theorem inv (h : Evicts c c' out) (hc : Inv hash c hs owned limbo) :
    ∃ rest, owned.Perm (out ++ rest) ∧ Inv hash c' hs rest (out ++ limbo) := by
  induction h generalizing owned limbo with
  | refl => exact ⟨owned, List.Perm.refl _, hc⟩
  | @step c c' e out he h ih =>
    obtain ⟨rest, hrest, hinv⟩ := hc.evictOneEntry he
    obtain ⟨rest', hrest', hinv'⟩ := ih hinv
    exact ⟨rest', hrest.trans (hrest'.cons e),
      hinv'.perm (List.Perm.refl _) List.perm_middle⟩

/-- An eviction puts nothing into the table. -/
theorem subset_entries (h : Evicts c c' out) (hc : Inv hash c hs owned limbo) :
    c'.table.entries ⊆ c.table.entries := by
  induction h generalizing owned limbo with
  | refl => exact List.Subset.refl _
  | step he h ih =>
    obtain ⟨rest, -, hinv⟩ := hc.evictOneEntry he
    exact fun x hx => (hc.table.mem_remove_iff.1 (ih hinv hx)).1

/-- An eviction leaves alone what it does not evict. -/
theorem frame (h : Evicts c c' out) :
    c'.capacity = c.capacity ∧ ∀ a, (∀ x ∈ out, x.addr ≠ a) →
      c'.refs a = c.refs a ∧ c'.inCache a = c.inCache a := by
  induction h with
  | refl => exact ⟨rfl, fun _ _ => ⟨rfl, rfl⟩⟩
  | @step c c' e out he h ih =>
    refine ⟨ih.1, fun a ha => ?_⟩
    obtain ⟨hr, hb⟩ := ih.2 a fun x hx => ha x (List.mem_cons_of_mem _ hx)
    have hne : a ≠ e.addr := (ha e List.mem_cons_self).symm
    exact ⟨hr.trans (Function.update_of_ne hne _ _), hb.trans (Function.update_of_ne hne _ _)⟩

end Evicts

/-- What is left of the list behind an evicted entry is still on it. -/
theorem mem_lru_evictOneEntry {next : List (LRUHandle ν)}
    (hnd : ((e :: next).map LRUHandle.addr).Nodup) (h : ∀ x ∈ e :: next, x ∈ c.lru) :
    ∀ x ∈ next, x ∈ (c.evictOneEntry e).lru := by
  intro x hx
  refine List.mem_filter.2 ⟨h x (List.mem_cons_of_mem _ hx), ?_⟩
  rw [List.map_cons, List.nodup_cons] at hnd
  rw [decide_eq_true_eq]
  intro ha
  exact hnd.1 (ha ▸ List.mem_map_of_mem hx)

section Loops

open LRUCache

variable {l : List (LRUHandle ν)} {charge : UInt64}

theorem evicts_evictNormal (hnd : (l.map LRUHandle.addr).Nodup) (h : ∀ x ∈ l, x ∈ c.lru) :
    Evicts c (evictNormal charge l c).1 (evictNormal charge l c).2 := by
  induction l generalizing c with
  | nil => exact Evicts.refl c
  | cons old next ih =>
    have hnext := (List.nodup_cons.1 hnd).2
    rw [evictNormal]
    split
    · split
      · exact ih hnext fun x hx => h x (List.mem_cons_of_mem _ hx)
      · exact Evicts.step (h old List.mem_cons_self) (ih hnext (mem_lru_evictOneEntry hnd h))
    · exact Evicts.refl c

theorem evicts_evictDurable (hnd : (l.map LRUHandle.addr).Nodup) (h : ∀ x ∈ l, x ∈ c.lru) :
    Evicts c (evictDurable charge l c).1 (evictDurable charge l c).2 := by
  induction l generalizing c with
  | nil => exact Evicts.refl c
  | cons old next ih =>
    rw [evictDurable]
    split
    · exact Evicts.step (h old List.mem_cons_self)
        (ih (List.nodup_cons.1 hnd).2 (mem_lru_evictOneEntry hnd h))
    · exact Evicts.refl c

theorem evicts_evictAll (hnd : (l.map LRUHandle.addr).Nodup) (h : ∀ x ∈ l, x ∈ c.lru) :
    Evicts c (evictAll l c).1 (evictAll l c).2 := by
  induction l generalizing c with
  | nil => exact Evicts.refl c
  | cons old next ih =>
    exact Evicts.step (h old List.mem_cons_self)
      (ih (List.nodup_cons.1 hnd).2 (mem_lru_evictOneEntry hnd h))

end Loops

namespace Inv

theorem evicts_evictFromLru (h : Inv hash c hs owned limbo) (charge : UInt64) :
    Evicts c (c.evictFromLru charge).1 (c.evictFromLru charge).2 := by
  have hnormal : Evicts c (LRUCache.evictNormal charge c.lru c).1 _ :=
    evicts_evictNormal h.lru_addrs fun _ hx => hx
  obtain ⟨rest, -, hinv⟩ := hnormal.inv h
  exact hnormal.trans (evicts_evictDurable hinv.lru_addrs fun _ hx => hx)

theorem evicts_prune (h : Inv hash c hs owned limbo) :
    Evicts c (LRUCache.evictAll c.lru c).1 (LRUCache.evictAll c.lru c).2 :=
  evicts_evictAll h.lru_addrs fun _ hx => hx

/-! ## The calls -/

/-- Evicted entries are freed. -/
theorem freeAll_of_evicts (h : Inv hash c hs owned []) (hev : Evicts c c' out) :
    ∃ rest, owned.Perm (out ++ rest) ∧ Inv hash (c'.freeAll out) hs rest [] := by
  obtain ⟨rest, hperm, hinv⟩ := hev.inv h
  exact ⟨rest, hperm, hinv.freeAll⟩

/-- **`prune` keeps the invariant.** -/
theorem prune (h : Inv hash c hs owned []) : ∃ rest, Inv hash c.prune.2 hs rest [] := by
  obtain ⟨rest, -, hinv⟩ := h.freeAll_of_evicts h.evicts_prune
  exact ⟨rest, hinv⟩

/-- **`set_capacity` keeps the invariant.** -/
theorem setCapacity (h : Inv hash c hs owned []) (capacity : UInt64) :
    ∃ rest, Inv hash (c.setCapacity capacity) hs rest [] := by
  have hc : Inv hash { c with capacity := capacity } hs owned [] := { h with }
  obtain ⟨rest, -, hinv⟩ := hc.freeAll_of_evicts (hc.evicts_evictFromLru 0)
  exact ⟨rest, hinv⟩

theorem lookup_of_none {key : CacheKey} {k : UInt32} (hk : c.table.lookup key k = none) :
    c.lookup key k = (none, { c with lookupCount := c.lookupCount + 1 }) := by
  simp only [LRUCache.lookup, hk]

theorem lookup_of_some {key : CacheKey} {k : UInt32} (hk : c.table.lookup key k = some e) :
    c.lookup key k = (some e,
      { c with
        lru := if c.refs e.addr = 1 then (c.lruRemove e).lru else c.lru
        refs := Function.update c.refs e.addr (c.refs e.addr + 1)
        lookupCount := c.lookupCount + 1, hitCount := c.hitCount + 1 }) := by
  simp only [LRUCache.lookup, hk]
  split <;> rfl

/-- **`lookup` keeps the invariant**, with the handle it returns, as long
as the references fit their 32 bits. -/
theorem lookup (h : Inv hash c hs owned []) {key : CacheKey} (hk : c.table.lookup key (hash key) = some e)
    (hmax : outstanding hs e + 2 < 4294967296) :
    Inv hash (c.lookup key (hash key)).2 (e :: hs) owned [] := by
  obtain ⟨hmem, -⟩ := h.lookup_eq_some_iff.1 hk
  obtain ⟨hown, hb⟩ := (h.mem_table e).1 hmem
  obtain ⟨rest, hperm, hc⟩ := h.exists_cons hown
  refine Inv.perm ?_ hperm.symm (List.Perm.refl _)
  rw [lookup_of_some hk]
  have hrefs := h.refs e hown
  rw [hb, Bool.toNat_true] at hrefs
  have hsucc : (c.refs e.addr + 1).toNat = outstanding hs e + 2 := by
    rw [UInt32.toNat_add, hrefs, UInt32.toNat_one]
    exact Nat.mod_eq_of_lt (by omega)
  have hne (n : ℕ) (hn : n ≤ 1) : (c.refs e.addr + 1).toNat ≠ n := by omega
  refine hc.change ⟨rfl, rfl, rfl⟩ (fun a ha => ⟨Function.update_of_ne ha _ _, rfl⟩)
    (fun x hx => outstanding_cons_of_ne (hc.addr_ne_of_mem_tail hx)) (fun x hx => ?_) ?_ ?_
    ⟨?_, fun x => ?_⟩ ⟨h.table, fun x => ?_⟩ rfl
  · rcases List.mem_cons.1 hx with rfl | hx
    · exact List.mem_cons_self
    · exact hc.held x hx
  · simp only [Function.update_self, hb, Bool.toNat_true, hsucc, outstanding_cons_self]
  · simp only [Function.update_self]
    exact fun h0 => hne 0 (by omega) (by rw [h0]; rfl)
  · dsimp only
    split
    · exact h.lru_nodup.filter _
    · exact h.lru_nodup
  · simp only [Function.update_self]
    have h1 : c.refs e.addr + 1 ≠ 1 := fun h1 => hne 1 (by omega) (by rw [h1]; rfl)
    simp only [h1, and_false, or_false]
    split
    · exact h.mem_lruRemove_iff (h.mem_heap_of_owned hown)
    · rename_i hr
      refine ⟨fun hx => ⟨hx, ?_⟩, And.left⟩
      rintro rfl
      exact hr ((h.mem_lru x).1 hx).2.2
  · rcases eq_or_ne x e with rfl | hxe
    · simp [hmem, hb]
    · simp [hxe]

/-! ### `release` -/

section Release

variable {hs' : List (LRUHandle ν)}

/-- The last reference: the entry is no longer in the cache. -/
theorem release_of_last (hr : c.refs e.addr - 1 = 0) :
    c.release (some e) =
      ({ c with
          refs := Function.update c.refs e.addr (c.refs e.addr - 1)
          usage := c.usage - e.charge } : LRUCache ν).free e := by
  simp [LRUCache.release, LRUCache.unref, hr]

/-- The last handle of an entry in a cache that is over its capacity. -/
theorem release_of_over (hb : c.inCache e.addr = true) (hr : c.refs e.addr - 1 = 1)
    (hover : c.capacity < c.usage) :
    c.release (some e) =
      ({ c with
          refs := Function.update (Function.update c.refs e.addr 1) e.addr (1 - 1)
          inCache := Function.update c.inCache e.addr false
          table := (c.table.remove e.key e.hash).2
          usage := c.usage - e.charge } : LRUCache ν).free e := by
  simp [LRUCache.release, LRUCache.unref, LRUCache.setInCache, hr, hb, hover]

/-- The last handle of an entry in a cache with room. -/
theorem release_of_room (hb : c.inCache e.addr = true) (hr : c.refs e.addr - 1 = 1)
    (hroom : ¬ c.capacity < c.usage) :
    c.release (some e) =
      { c with refs := Function.update c.refs e.addr 1, lru := c.lru ++ [e] } := by
  simp [LRUCache.release, LRUCache.unref, LRUCache.lruAppend, hr, hb, hroom]

/-- A handle that is not the last. -/
theorem release_of_held (hr : c.refs e.addr - 1 ≠ 0)
    (hb : ¬ (c.inCache e.addr = true ∧ c.refs e.addr - 1 = 1)) :
    c.release (some e) =
      { c with refs := Function.update c.refs e.addr (c.refs e.addr - 1) } := by
  simp [LRUCache.release, LRUCache.unref, hr, hb]

/-- What a released handle says about its entry. -/
theorem refs_of_held (h : Inv hash c hs owned limbo) (hhs : hs.Perm (e :: hs')) :
    e ∈ owned ∧ (c.refs e.addr).toNat = outstanding hs' e + 1 + (c.inCache e.addr).toNat ∧
      (c.refs e.addr - 1).toNat = outstanding hs' e + (c.inCache e.addr).toNat := by
  have hown := h.held e (hhs.mem_iff.2 List.mem_cons_self)
  have hrefs := h.refs e hown
  rw [outstanding_perm hhs, outstanding_cons_self] at hrefs
  refine ⟨hown, hrefs, ?_⟩
  rw [toNat_sub_one (h.live e hown), hrefs]
  omega

/-- With the last handle of an owned entry, the others keep theirs. -/
theorem handles_of_perm (h : Inv hash c hs (e :: owned) limbo) (hhs : hs.Perm (e :: hs')) :
    (∀ x ∈ owned, outstanding hs' x = outstanding hs x) ∧ ∀ x ∈ hs', x ∈ e :: owned :=
  ⟨fun x hx => by rw [outstanding_perm hhs, outstanding_cons_of_ne (h.addr_ne_of_mem_tail hx)],
    fun x hx => h.held x (hhs.mem_iff.2 (List.mem_cons_of_mem _ hx))⟩

theorem not_mem_lru_of_held (h : Inv hash c hs owned limbo) (hhs : hs.Perm (e :: hs'))
    (hx : x ∈ c.lru) : x ≠ e := by
  rintro rfl
  have hzero := h.outstanding_of_mem_lru hx
  rw [outstanding_perm hhs, outstanding_cons_self] at hzero
  omega

/-- A release that lets go of the entry. -/
theorem release_drop (h : Inv hash c hs owned []) (hhs : hs.Perm (e :: hs'))
    (hr : c.refs e.addr - 1 = 0 ∨
      c.inCache e.addr = true ∧ c.refs e.addr - 1 = 1 ∧ c.capacity < c.usage) :
    ∃ rest, owned.Perm (e :: rest) ∧ Inv hash (c.release (some e)) hs' rest [] := by
  obtain ⟨hown, -, hsub⟩ := h.refs_of_held hhs
  obtain ⟨rest, hperm, hc⟩ := h.exists_cons hown
  obtain ⟨hcount, hheld⟩ := hc.handles_of_perm hhs
  refine ⟨rest, hperm, ?_⟩
  have hzero : outstanding hs' e = 0 := by
    rcases hr with hr | ⟨hb, hr, -⟩
    · rw [hr] at hsub
      exact (Nat.add_eq_zero_iff.1 hsub.symm).1
    · rw [hr, hb, UInt32.toNat_one, Bool.toNat_true] at hsub
      omega
  have hheld' (x : LRUHandle ν) (hx : x ∈ hs') : x ∈ rest :=
    List.mem_of_ne_of_mem (ne_of_outstanding_eq_zero hzero hx) (hheld x hx)
  have hlru (x : LRUHandle ν) : x ∈ c.lru ↔ x ∈ c.lru ∧ x ≠ e :=
    ⟨fun hx => ⟨hx, h.not_mem_lru_of_held hhs hx⟩, And.left⟩
  rcases hr with hr | ⟨hb, hr, hover⟩
  · have hb : ¬ c.inCache e.addr = true := by
      intro hb
      rw [hr, hb, hzero] at hsub
      exact absurd hsub (by decide)
    rw [release_of_last hr]
    refine Inv.free (hc.drop ⟨rfl, rfl, rfl⟩ (fun a ha => ⟨Function.update_of_ne ha _ _, rfl⟩)
      hcount hheld' ⟨h.lru_nodup, hlru⟩ ⟨h.table, fun x => ⟨fun hx => ⟨hx, ?_⟩, And.left⟩⟩ rfl)
    rintro rfl
    exact hb ((h.mem_table x).1 hx).2
  · rw [release_of_over hb hr hover]
    have hmem : e ∈ c.table.entries := (h.mem_table e).2 ⟨hown, hb⟩
    refine Inv.free (hc.drop ⟨rfl, rfl, rfl⟩ (fun a ha => ⟨?_, Function.update_of_ne ha _ _⟩)
      hcount hheld' ⟨h.lru_nodup, hlru⟩
      ⟨h.table.remove, fun x => h.mem_remove_iff hmem⟩ rfl)
    exact (Function.update_of_ne ha _ _).trans (Function.update_of_ne ha _ _)

/-- A release after which the entry stays. -/
theorem release_keep (h : Inv hash c hs owned []) (hhs : hs.Perm (e :: hs'))
    (hr : c.refs e.addr - 1 ≠ 0)
    (hkeep : ¬ (c.inCache e.addr = true ∧ c.refs e.addr - 1 = 1 ∧ c.capacity < c.usage)) :
    Inv hash (c.release (some e)) hs' owned [] := by
  obtain ⟨hown, -, hsub⟩ := h.refs_of_held hhs
  obtain ⟨rest, hperm, hc⟩ := h.exists_cons hown
  obtain ⟨hcount, hheld⟩ := hc.handles_of_perm hhs
  refine Inv.perm ?_ hperm.symm (List.Perm.refl _)
  have hlru (x : LRUHandle ν) (hx : x ∈ c.lru) : x ≠ e := h.not_mem_lru_of_held hhs hx
  have htable (x : LRUHandle ν) : x ∈ c.table.entries ↔
      x ∈ c.table.entries ∧ x ≠ e ∨ x = e ∧ c.inCache e.addr = true := by
    rcases eq_or_ne x e with rfl | hne
    · simp [h.mem_table, hown]
    · simp [hne]
  by_cases hlast : c.inCache e.addr = true ∧ c.refs e.addr - 1 = 1
  · obtain ⟨hb, hr1⟩ := hlast
    rw [hr1] at hsub
    rw [release_of_room hb hr1 fun hover => hkeep ⟨hb, hr1, hover⟩]
    refine hc.change ⟨rfl, rfl, rfl⟩ (fun a ha => ⟨Function.update_of_ne ha _ _, rfl⟩) hcount hheld
      ?_ ?_ ⟨?_, fun x => ?_⟩ ⟨h.table, htable⟩ rfl
    · simpa using hsub
    · simp
    · refine List.nodup_append.2 ⟨h.lru_nodup, List.nodup_singleton _, fun x hx y hy => ?_⟩
      rw [List.mem_singleton.1 hy]
      exact hlru x hx
    · simp only [List.mem_append, List.mem_singleton, Function.update_self, hb, and_true]
      exact or_congr_left ⟨fun hx => ⟨hx, hlru x hx⟩, And.left⟩
  · rw [release_of_held hr hlast]
    refine hc.change ⟨rfl, rfl, rfl⟩ (fun a ha => ⟨Function.update_of_ne ha _ _, rfl⟩) hcount hheld
      ?_ ?_ ⟨h.lru_nodup, fun x => ?_⟩ ⟨h.table, htable⟩ rfl
    · simpa using hsub
    · simpa using hr
    · simp only [Function.update_self, hlast, and_false, or_false]
      exact ⟨fun hx => ⟨hx, hlru x hx⟩, And.left⟩

/-- **`release` keeps the invariant** for the handles that are left. -/
theorem release (h : Inv hash c hs owned []) (hhs : hs.Perm (e :: hs')) :
    ∃ rest, Inv hash (c.release (some e)) hs' rest [] := by
  by_cases hdrop : c.refs e.addr - 1 = 0 ∨
      c.inCache e.addr = true ∧ c.refs e.addr - 1 = 1 ∧ c.capacity < c.usage
  · obtain ⟨rest, -, hinv⟩ := h.release_drop hhs hdrop
    exact ⟨rest, hinv⟩
  · rw [not_or] at hdrop
    exact ⟨owned, h.release_keep hhs hdrop.1 hdrop.2⟩

end Release

/-! ### `erase` and `insert` -/

end Inv

/-- The entry leaves the table: what `erase` does before it frees, and
what `insert` does to the entry it replaces. -/
def LRUCache.detach (c : LRUCache ν) (e : LRUHandle ν) : LRUCache ν :=
  { c with
    table := (c.table.remove e.key e.hash).2
    inCache := Function.update c.inCache e.addr false
    refs := Function.update c.refs e.addr (c.refs e.addr - 1)
    usage := if c.refs e.addr - 1 = 0 then c.usage - e.charge else c.usage
    lru := if c.refs e.addr - 1 = 0 then (c.lruRemove e).lru else c.lru }

theorem LRUCache.lru_detach_of_last (hr : c.refs e.addr - 1 = 0) :
    (c.detach e).lru = (c.lruRemove e).lru := if_pos hr

theorem LRUCache.lru_detach_of_held (hr : c.refs e.addr - 1 ≠ 0) : (c.detach e).lru = c.lru :=
  if_neg hr

theorem LRUCache.unref_of_last (hr : c.refs e.addr - 1 = 0) :
    c.unref e = (true, { c with refs := Function.update c.refs e.addr (c.refs e.addr - 1) }) := by
  simp only [LRUCache.unref, hr, beq_self_eq_true]

theorem LRUCache.unref_of_held (hr : c.refs e.addr - 1 ≠ 0) :
    c.unref e = (false, { c with refs := Function.update c.refs e.addr (c.refs e.addr - 1) }) := by
  simp only [LRUCache.unref, beq_eq_false_iff_ne.2 hr]

namespace Inv

/-- The references of an entry of the table, without that of the cache. -/
theorem toNat_refs_sub_one (h : Inv hash c hs owned limbo) (he : e ∈ c.table.entries) :
    (c.refs e.addr - 1).toNat = outstanding hs e := by
  obtain ⟨hown, hb⟩ := (h.mem_table e).1 he
  rw [toNat_sub_one (h.live e hown), h.refs e hown, hb]
  rfl

/-- An entry without handles that leaves the table is dropped. -/
theorem detach_drop (h : Inv hash c hs owned limbo) (he : e ∈ c.table.entries)
    (hr : c.refs e.addr - 1 = 0) :
    ∃ rest, owned.Perm (e :: rest) ∧ Inv hash (c.detach e) hs rest (e :: limbo) := by
  have hown := h.mem_owned_of_mem_table he
  obtain ⟨rest, hperm, hc⟩ := h.exists_cons hown
  have hzero : outstanding hs e = 0 := by
    rw [← h.toNat_refs_sub_one he, hr]
    rfl
  refine ⟨rest, hperm, hc.drop ⟨rfl, rfl, rfl⟩ (fun a ha => ⟨Function.update_of_ne ha _ _,
    Function.update_of_ne ha _ _⟩) (fun _ _ => rfl) (fun x hx => ?_) ⟨?_, fun x => ?_⟩
    ⟨h.table.remove, fun x => h.mem_remove_iff he⟩ (if_pos hr)⟩
  · exact List.mem_of_ne_of_mem (ne_of_outstanding_eq_zero hzero hx) (hc.held x hx)
  · rw [LRUCache.lru_detach_of_last hr]
    exact h.lru_nodup.filter _
  · rw [LRUCache.lru_detach_of_last hr]
    exact h.mem_lruRemove_iff (h.mem_heap_of_owned hown)

/-- An entry with handles that leaves the table is still owned. -/
theorem detach_keep (h : Inv hash c hs owned limbo) (he : e ∈ c.table.entries)
    (hr : c.refs e.addr - 1 ≠ 0) : Inv hash (c.detach e) hs owned limbo := by
  obtain ⟨rest, hperm, hc⟩ := h.exists_cons (h.mem_owned_of_mem_table he)
  refine Inv.perm (hc.change ⟨rfl, rfl, rfl⟩ (fun a ha => ⟨Function.update_of_ne ha _ _,
    Function.update_of_ne ha _ _⟩) (fun _ _ => rfl) hc.held ?_ ?_ ⟨?_, fun x => ?_⟩
    ⟨h.table.remove, fun x => ?_⟩ (if_neg hr)) hperm.symm (List.Perm.refl _)
  · simp only [LRUCache.detach, Function.update_self, Bool.toNat_false, Nat.add_zero]
    exact h.toNat_refs_sub_one he
  · simpa only [LRUCache.detach, Function.update_self] using hr
  · rw [LRUCache.lru_detach_of_held hr]
    exact h.lru_nodup
  · rw [LRUCache.lru_detach_of_held hr]
    simp only [LRUCache.detach, Function.update_self, Bool.false_eq_true, false_and,
      and_false, or_false]
    refine ⟨fun hx => ⟨hx, ?_⟩, And.left⟩
    rintro rfl
    exact hr (by rw [((h.mem_lru x).1 hx).2.2]; rfl)
  · simp only [LRUCache.detach, Function.update_self, Bool.false_eq_true, and_false, or_false]
    exact h.mem_remove_iff he

theorem remove_of_lookup {t : HandleTable ν} {key : CacheKey} {k : UInt32}
    (hk : t.lookup key k = some e) : (t.remove key k).1 = some e := by
  rw [HandleTable.remove_fst, hk]

theorem erase_of_none {key : CacheKey} {k : UInt32} (hk : c.table.lookup key k = none) :
    c.erase key k = c := by
  simp [LRUCache.erase, HandleTable.remove, hk]

/-- `erase` detaches the entry and frees it when nobody holds it. -/
theorem erase_of_some (hb : c.inCache e.addr = true)
    (hk : c.table.lookup e.key e.hash = some e) :
    c.erase e.key e.hash =
      if c.refs e.addr - 1 = 0 then (c.detach e).free e else c.detach e := by
  have hrem : c.table.remove e.key e.hash = (some e, (c.table.remove e.key e.hash).2) := by
    rw [← remove_of_lookup hk]
  rw [LRUCache.erase, hrem]
  dsimp only
  by_cases hr : c.refs e.addr - 1 = 0
  · rw [LRUCache.unref_of_last (by exact hr), if_pos hr]
    simp [LRUCache.detach, LRUCache.setInCache, LRUCache.lruRemove, hr, hb]
  · rw [LRUCache.unref_of_held (by exact hr), if_neg hr]
    simp [LRUCache.detach, LRUCache.setInCache, hr]

/-- **`erase` keeps the invariant.** -/
theorem erase (h : Inv hash c hs owned []) (key : CacheKey) :
    ∃ rest, Inv hash (c.erase key (hash key)) hs rest [] := by
  rcases hk : c.table.lookup key (hash key) with - | e
  · rw [erase_of_none hk]
    exact ⟨owned, h⟩
  · obtain ⟨he, rfl⟩ := h.lookup_eq_some_iff.1 hk
    have hhash := h.hashed e (h.mem_heap_of_owned (h.mem_owned_of_mem_table he))
    rw [← hhash] at hk ⊢
    rw [erase_of_some ((h.mem_table e).1 he).2 hk]
    split
    · rename_i hr
      obtain ⟨rest, -, hinv⟩ := h.detach_drop he hr
      exact ⟨rest, hinv.free⟩
    · rename_i hr
      exact ⟨owned, h.detach_keep he hr⟩

/-! ### `insert` -/

section Insert

variable {key : CacheKey} {value : ν} {charge : UInt64} {priority : CachePriority}

/-- **What `insert` can do**, by what the table returns. -/
theorem insert_cases {k : UInt32}
    (h : c.insert key k value charge priority = some (e, c')) :
    e = ⟨c.fresh, key, k, value, charge, priority⟩ ∧
    ∃ c₁ out old table, (c.allocate e).evictFromLru charge = (c₁, out) ∧
      c₁.table.insert e = some (old, table) ∧
      ((old = none ∧
        c' = LRUCache.freeAll { c₁ with table := table, usage := c₁.usage + charge } out) ∨
      ∃ o, old = some o ∧
        ((c₁.refs o.addr - 1 = 0 ∧ c' = LRUCache.freeAll { c₁.detach o with
            table := table, usage := c₁.usage + charge - o.charge } (out ++ [o])) ∨
        (c₁.refs o.addr - 1 ≠ 0 ∧ c' = LRUCache.freeAll { c₁.detach o with
            table := table, usage := c₁.usage + charge } out))) := by
  unfold LRUCache.insert at h
  dsimp only at h
  rcases hev : (c.allocate ⟨c.fresh, key, k, value, charge, priority⟩).evictFromLru charge with
    ⟨c₁, out⟩
  rw [hev] at h
  dsimp only at h
  rcases hins : c₁.table.insert ⟨c.fresh, key, k, value, charge, priority⟩ with - | ⟨old, table⟩
  · rw [hins] at h
    exact nomatch h
  rw [hins] at h
  dsimp only at h
  rcases old with - | o
  · obtain ⟨rfl, rfl⟩ := Prod.mk.inj (Option.some.inj h)
    exact ⟨rfl, c₁, out, none, table, hev, hins, Or.inl ⟨rfl, rfl⟩⟩
  · dsimp only at h
    by_cases hr : c₁.refs o.addr - 1 = 0
    · rw [LRUCache.unref_of_last (by exact hr)] at h
      obtain ⟨rfl, rfl⟩ := Prod.mk.inj (Option.some.inj h)
      refine ⟨rfl, c₁, out, some o, table, hev, hins, Or.inr ⟨o, rfl, Or.inl ⟨hr, ?_⟩⟩⟩
      simp [LRUCache.detach, LRUCache.setInCache, LRUCache.lruRemove, hr]
    · rw [LRUCache.unref_of_held (by exact hr)] at h
      obtain ⟨rfl, rfl⟩ := Prod.mk.inj (Option.some.inj h)
      refine ⟨rfl, c₁, out, some o, table, hev, hins, Or.inr ⟨o, rfl, Or.inr ⟨hr, ?_⟩⟩⟩
      simp [LRUCache.detach, LRUCache.setInCache, hr]

/-- **`insert` returns** as long as the table has room for the key. -/
theorem exists_insert (h : Inv hash c hs owned []) (hroom : c.table.HasRoom key (hash key)) :
    ∃ r, c.insert key (hash key) value charge priority = some r := by
  set e : LRUHandle ν := ⟨c.fresh, key, hash key, value, charge, priority⟩ with he
  have halloc : Inv hash (c.allocate e) hs owned [e] := h.allocate rfl rfl
  have hevicts := halloc.evicts_evictFromLru charge
  obtain ⟨rest, -, h₁⟩ := hevicts.inv halloc
  obtain ⟨table, htable⟩ := h₁.table.exists_insert (e := e)
    (hroom.lt_of_subset h.table h₁.table (hevicts.subset_entries halloc))
  unfold LRUCache.insert
  dsimp only
  rw [← he, htable]
  dsimp only
  split
  · exact ⟨_, rfl⟩
  · split <;> exact ⟨_, rfl⟩

/-- A new entry that takes the place of the entry of its key, or a place
of its own. -/
theorem adopt_insert {old : Option (LRUHandle ν)} {table : HandleTable ν} {c₂ : LRUCache ν}
    (h : Inv hash c hs owned (e :: limbo)) (hins : c.table.insert e = some (old, table))
    (hrefs : c.refs e.addr = 2) (hb : c.inCache e.addr = true)
    (h₂ : Inv hash c₂ hs owned' (e :: limbo'))
    (hc₂ : c₂.refs e.addr = c.refs e.addr ∧ c₂.inCache e.addr = c.inCache e.addr)
    (hmem : ∀ x, x ∈ c₂.table.entries ↔
      x ∈ c.table.entries ∧ ¬ (x.hash = e.hash ∧ x.key = e.key)) :
    Inv hash { c₂ with table := table, usage := c₂.usage + e.charge } (e :: hs) (e :: owned')
      limbo' := by
  obtain ⟨hvalid, htable⟩ := h.table.insert hins
  refine h₂.adopt ⟨rfl, rfl, rfl⟩ ⟨rfl, rfl, rfl⟩ (hc₂.1.trans hrefs) (hc₂.2.trans hb)
    ⟨hvalid, fun x => ?_⟩ rfl
  rw [hmem]
  exact htable x

/-- **`insert` keeps the invariant.** It lets go of some entries that had
no handle, and the new entry is in the cache. -/
theorem insert (h : Inv hash c hs owned [])
    (hi : c.insert key (hash key) value charge priority = some (e, c')) :
    e = ⟨c.fresh, key, hash key, value, charge, priority⟩ ∧ c'.capacity = c.capacity ∧
      c'.inCache e.addr = true ∧
      ∃ gone rest, owned.Perm (gone ++ rest) ∧ Inv hash c' (e :: hs) (e :: rest) [] := by
  obtain ⟨he, c₁, out, old, table, hev, hins, hcases⟩ := insert_cases hi
  have halloc : Inv hash (c.allocate e) hs owned [e] := h.allocate (by rw [he]) (by rw [he])
  have hevicts := halloc.evicts_evictFromLru charge
  rw [hev] at hevicts
  obtain ⟨rest, hperm, h₁⟩ := hevicts.inv halloc
  have h₁ := h₁.perm (List.Perm.refl _) (List.perm_append_singleton e out)
  -- the new entry is none of those that were evicted
  have hne (x : LRUHandle ν) (hx : x ∈ out) : x.addr ≠ e.addr := by
    have hnd := (List.nodup_append.1 h₁.nodup_append).2.1
    refine h₁.addr_ne (h₁.mem_heap_of_limbo List.mem_cons_self)
      (h₁.mem_heap_of_limbo (List.mem_cons_of_mem _ hx)) ?_
    rintro rfl
    exact (List.nodup_cons.1 hnd).1 hx
  obtain ⟨hcap, hframe⟩ := hevicts.frame
  have hrefs : c₁.refs e.addr = 2 := (hframe _ hne).1.trans (Function.update_self ..)
  have hb : c₁.inCache e.addr = true := (hframe _ hne).2.trans (Function.update_self ..)
  have hcharge : e.charge = charge := by rw [he]
  have hold := HandleTable.insert_fst hins
  have hhash : e.hash = hash e.key := by rw [he]
  refine ⟨he, ?_⟩
  rcases hcases with ⟨rfl, rfl⟩ | ⟨o, rfl, hcases⟩
  · -- no entry of the key
    have hnone (x : LRUHandle ν) : x ∈ c₁.table.entries ↔
        x ∈ c₁.table.entries ∧ ¬ (x.hash = e.hash ∧ x.key = e.key) := by
      refine ⟨fun hx => ⟨hx, fun hk => ?_⟩, And.left⟩
      rw [h₁.table.lookup_eq_some_iff.2 ⟨hx, hk⟩] at hold
      exact nomatch hold
    have hinv := h₁.adopt_insert hins hrefs hb h₁ ⟨rfl, rfl⟩ hnone
    rw [hcharge] at hinv
    rw [← List.append_nil out] at hinv
    exact ⟨(LRUCache.capacity_freeAll _).trans hcap, by simpa using hb, out, rest, hperm,
      hinv.freeAll⟩
  · -- the entry `o` of the key leaves the table
    obtain ⟨ho, hoh, hok⟩ := h₁.table.lookup_eq_some_iff.1 hold.symm
    have hoe : e.addr ≠ o.addr := (h₁.addr_ne (h₁.mem_heap_of_limbo List.mem_cons_self)
      (h₁.mem_heap_of_owned (h₁.mem_owned_of_mem_table ho))
      (h₁.ne_of_mem_limbo List.mem_cons_self (h₁.mem_owned_of_mem_table ho))).symm
    have hsame : (c₁.detach o).refs e.addr = c₁.refs e.addr ∧
        (c₁.detach o).inCache e.addr = c₁.inCache e.addr :=
      ⟨Function.update_of_ne hoe _ _, Function.update_of_ne hoe _ _⟩
    have hmem (x : LRUHandle ν) : x ∈ (c₁.detach o).table.entries ↔
        x ∈ c₁.table.entries ∧ ¬ (x.hash = e.hash ∧ x.key = e.key) := by
      rw [← hoh, ← hok]
      exact h₁.table.mem_remove_iff
    rcases hcases with ⟨hr, rfl⟩ | ⟨hr, rfl⟩
    · obtain ⟨rest', hrest', h₂⟩ := h₁.detach_drop ho hr
      have h₂ := h₂.perm (List.Perm.refl _) (List.Perm.swap e o out)
      have hinv := h₁.adopt_insert hins hrefs hb h₂ hsame hmem
      have husage : (c₁.detach o).usage + e.charge = c₁.usage + charge - o.charge := by
        rw [LRUCache.detach, hcharge]
        simp only [if_pos hr]
        abel
      rw [husage] at hinv
      have hinv := hinv.perm (List.Perm.refl _) (List.perm_append_singleton o out).symm
      rw [← List.append_nil (out ++ [o])] at hinv
      refine ⟨(LRUCache.capacity_freeAll _).trans hcap, by simpa using hsame.2.trans hb, out ++ [o],
        rest', ?_, hinv.freeAll⟩
      rw [List.append_assoc]
      exact hperm.trans (hrest'.append_left out)
    · have hinv := h₁.adopt_insert hins hrefs hb (h₁.detach_keep ho hr) hsame hmem
      have husage : (c₁.detach o).usage + e.charge = c₁.usage + charge := by
        rw [LRUCache.detach, hcharge]
        simp only [if_neg hr]
      rw [husage] at hinv
      rw [← List.append_nil out] at hinv
      exact ⟨(LRUCache.capacity_freeAll _).trans hcap, by simpa using hsame.2.trans hb, out, rest,
        hperm, hinv.freeAll⟩

end Insert

end Inv

end LruCache

end CppEtudes
