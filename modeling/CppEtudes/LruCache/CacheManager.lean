import CppEtudes.LruCache.Calls
import CppEtudes.LruCache.Model.CacheManager
import Mathlib.Algebra.BigOperators.Fin
import Mathlib.Algebra.Order.BigOperators.Group.Finset

/-!
# The cache manager

Between two calls of `populate` and `probe` no handle is outstanding, so
every entry is on the LRU list of its shard. An entry holds the value of
the latest `populate` of its key: a later one of the same key goes to the
same shard and takes its place there.

The usage stays within the capacity although the shards round theirs up:
an entry that brings the sum over the capacity is the only one left by
`prune`, and it stays only if it fits its shard alone. This counts in
numbers that do not wrap, which they do when the size of one value comes
within `per_shard` of `2^64`.
-/

namespace CppEtudes

namespace LruCache

/-! ## One shard -/

section Shard

variable {ν : Type} {hash : CacheKey → UInt32} {c c' : LRUCache ν} {e x : LRUHandle ν}
  {hs owned : List (LRUHandle ν)}

theorem mem_lru_evictAll {l : List (LRUHandle ν)} (h : x ∈ (LRUCache.evictAll l c).1.lru) :
    x ∈ c.lru ∧ x.addr ∉ l.map LRUHandle.addr := by
  induction l generalizing c with
  | nil => exact ⟨h, List.not_mem_nil⟩
  | cons old next ih =>
    obtain ⟨hmem, hnot⟩ := ih h
    obtain ⟨hlru, hne⟩ := List.mem_filter.1 hmem
    refine ⟨hlru, ?_⟩
    rw [List.map_cons, List.mem_cons, not_or]
    exact ⟨by simpa using hne, hnot⟩

theorem LRUCache.lru_freeAll (l : List (LRUHandle ν)) : (c.freeAll l).lru = c.lru := by
  induction l generalizing c with
  | nil => rfl
  | cons e l ih => exact ih

theorem LRUCache.lru_prune : c.prune.2.lru = [] := by
  refine List.eq_nil_iff_forall_not_mem.2 fun x hx => ?_
  have hx : x ∈ (LRUCache.evictAll c.lru c).1.lru := by
    rw [LRUCache.prune, LRUCache.lru_freeAll] at hx
    exact hx
  obtain ⟨hmem, hnot⟩ := mem_lru_evictAll hx
  exact hnot (List.mem_map_of_mem hmem)

namespace Inv

/-- An owned entry without a handle is in the cache, on the LRU list. -/
theorem mem_lru_of_outstanding (h : Inv hash c hs owned []) (hx : x ∈ owned)
    (hzero : outstanding hs x = 0) : x ∈ c.lru ∧ x ∈ c.table.entries := by
  have hrefs := h.refs x hx
  have hlive := h.live x hx
  rw [hzero, Nat.zero_add] at hrefs
  have hb : c.inCache x.addr = true := by
    by_contra hb
    rw [Bool.eq_false_of_not_eq_true hb] at hrefs
    exact hlive (UInt32.toNat_inj.1 hrefs)
  rw [hb] at hrefs
  exact ⟨(h.mem_lru x).2 ⟨hx, hb, UInt32.toNat_inj.1 hrefs⟩, (h.mem_table x).2 ⟨hx, hb⟩⟩

/-- **`prune` leaves the entries that have a handle.** -/
theorem prune_spec (h : Inv hash c hs owned []) :
    ∃ out rest, owned.Perm (out ++ rest) ∧ Inv hash c.prune.2 hs rest [] ∧
      (∀ x ∈ rest, outstanding hs x ≠ 0) ∧ c.prune.2.capacity = c.capacity ∧
      ∀ x ∈ rest, c.prune.2.inCache x.addr = c.inCache x.addr := by
  have hev := h.evicts_prune
  obtain ⟨rest, hperm, hinv⟩ := h.freeAll_of_evicts hev
  have hinv : Inv hash c.prune.2 hs rest [] := hinv
  obtain ⟨hcap, hframe⟩ := hev.frame
  refine ⟨_, rest, hperm, hinv, fun x hx hzero => ?_, ?_, fun x hx => ?_⟩
  · have hlru := (hinv.mem_lru_of_outstanding hx hzero).1
    rw [LRUCache.lru_prune] at hlru
    exact absurd hlru List.not_mem_nil
  · rw [LRUCache.prune, LRUCache.capacity_freeAll]
    exact hcap
  · rw [LRUCache.prune, LRUCache.inCache_freeAll]
    refine (hframe x.addr fun y hy => ?_).2
    have hnd := hperm.nodup_iff.1 h.nodup_owned
    have hyx : y ≠ x := fun hyx => (List.nodup_append.1 hnd).2.2 y hy x hx hyx
    exact h.addr_ne (h.mem_heap_of_owned (hperm.mem_iff.2 (List.mem_append_right _ hx)))
      (h.mem_heap_of_owned (hperm.mem_iff.2 (List.mem_append_left _ hy))) hyx

/-- Nobody holds a handle: nothing is left. -/
theorem prune_of_no_handle (h : Inv hash c [] owned []) :
    Inv hash c.prune.2 [] [] [] ∧ c.prune.2.capacity = c.capacity := by
  obtain ⟨out, rest, -, hinv, hheld, hcap, -⟩ := h.prune_spec
  obtain rfl : rest = [] :=
    List.eq_nil_iff_forall_not_mem.2 fun x hx => hheld x hx rfl
  exact ⟨hinv, hcap⟩

/-- One handle: its entry is left. -/
theorem prune_of_one_handle (h : Inv hash c [e] owned []) (hb : c.inCache e.addr = true) :
    Inv hash c.prune.2 [e] [e] [] ∧ c.prune.2.capacity = c.capacity ∧
      c.prune.2.inCache e.addr = true := by
  obtain ⟨out, rest, -, hinv, hheld, hcap, hcached⟩ := h.prune_spec
  have he : e ∈ rest := hinv.held e List.mem_cons_self
  have hall (x : LRUHandle ν) (hx : x ∈ rest) : x = e := by
    have hpos := Nat.pos_of_ne_zero (hheld x hx)
    obtain ⟨y, hy, hya⟩ := List.countP_pos_iff.1 hpos
    obtain rfl := List.mem_singleton.1 hy
    exact hinv.eq_of_addr (hinv.mem_heap_of_owned he) (hinv.mem_heap_of_owned hx)
      (by simpa using hya : y.addr = x.addr).symm
  have hperm : rest.Perm [e] :=
    (List.perm_ext_iff_of_nodup hinv.nodup_owned (List.nodup_singleton e)).2 fun x =>
      ⟨fun hx => List.mem_singleton.2 (hall x hx), fun hx => List.mem_singleton.1 hx ▸ he⟩
  exact ⟨hinv.perm hperm (List.Perm.refl _), hcap, (hcached e he).trans hb⟩

/-- **The only handle is released.** The entry stays if the shard is
within its capacity. -/
theorem release_only_handle (h : Inv hash c [e] (e :: owned) []) (hb : c.inCache e.addr = true) :
    (c.capacity < c.usage → Inv hash (c.release (some e)) [] owned []) ∧
      (¬ c.capacity < c.usage → Inv hash (c.release (some e)) [] (e :: owned) []) := by
  obtain ⟨-, -, hsub⟩ := h.refs_of_held (List.Perm.refl _)
  rw [hb] at hsub
  have hr : c.refs e.addr - 1 = 1 := UInt32.toNat_inj.1 hsub
  constructor
  · intro hover
    obtain ⟨rest, hperm, hinv⟩ :=
      h.release_drop (List.Perm.refl _) (Or.inr ⟨hb, hr, hover⟩)
    exact hinv.perm (List.Perm.cons_inv hperm).symm (List.Perm.refl _)
  · intro hroom
    exact h.release_keep (List.Perm.refl _) (by rw [hr]; decide) fun hover => hroom hover.2.2

end Inv

theorem capacity_release : (c.release (some e)).capacity = c.capacity := by
  by_cases hlast : c.refs e.addr - 1 = 0
  · rw [Inv.release_of_last hlast]
    rfl
  by_cases hone : c.inCache e.addr = true ∧ c.refs e.addr - 1 = 1
  · by_cases hover : c.capacity < c.usage
    · rw [Inv.release_of_over hone.1 hone.2 hover]
      rfl
    · rw [Inv.release_of_room hone.1 hone.2 hover]
  · rw [Inv.release_of_held hlast hone]

end Shard

/-! ## All shards -/

open ShardedLRUCache

namespace CacheManager

/-- The entries of the shards when no handle is outstanding; `latest`
gives the value of the latest `populate` of a key. -/
structure Holds (m : CacheManager) (latest : CacheKey → Option CacheValue)
    (owned : Fin 32 → List (LRUHandle CacheValue)) : Prop where
  shard : ∀ i, Inv hashSlice (m.cache.shards i) [] (owned i) []
  capacity : ∀ i, (m.cache.shards i).capacity = perShard m.cache.capacity
  home : ∀ i, ∀ e ∈ owned i, shardOf (hashSlice e.key) = i
  latest : ∀ i, ∀ e ∈ owned i, latest e.key = some e.value

/-- Each shard is within its part, and all are within the capacity. -/
structure Fits (capacity : UInt64) (owned : Fin 32 → List (LRUHandle CacheValue)) : Prop where
  shard : ∀ i, load (owned i) ≤ (perShard capacity).toNat
  total : ∑ i, load (owned i) ≤ capacity.toNat

variable {m m' : CacheManager} {latest : CacheKey → Option CacheValue}
  {owned owned' : Fin 32 → List (LRUHandle CacheValue)} {key : CacheKey} {value : CacheValue}

/-- `per_shard` in numbers that do not wrap; when `_capacity + 31` does,
it is 0. -/
theorem toNat_perShard (capacity : UInt64) :
    32 * (perShard capacity).toNat ≤ capacity.toNat + 31 ∧
      32 * (perShard capacity).toNat < 18446744073709551616 ∧
      (perShard capacity).toNat ≤ capacity.toNat := by
  have hlt := capacity.toNat_lt
  rw [perShard, UInt64.toNat_div, UInt64.toNat_add,
    show (31 : UInt64).toNat = 31 from rfl, show (32 : UInt64).toNat = 32 from rfl]
  omega

theorem toNat_getMemoryUsage (s : ShardedLRUCache CacheValue) :
    s.getMemoryUsage.toNat = (∑ i, (s.shards i).usage.toNat) % 18446744073709551616 := by
  have hfold (l : List (Fin 32)) (n : UInt64) :
      (l.foldl (fun total i => total + (s.shards i).usage) n).toNat =
        (n.toNat + (l.map fun i => (s.shards i).usage.toNat).sum) % 18446744073709551616 := by
    induction l generalizing n with
    | nil =>
      have hn := n.toNat_lt
      rw [List.foldl_nil, List.map_nil, List.sum_nil]
      omega
    | cons i l ih =>
      rw [List.foldl_cons, ih, UInt64.toNat_add, List.map_cons, List.sum_cons]
      omega
  rw [getMemoryUsage, hfold, ← Fin.sum_univ_def, UInt64.toNat_zero, Nat.zero_add]

/-- What fits is what the manager reports. -/
theorem Holds.memoryUsage_le (h : m.Holds latest owned) (hfits : Fits m.cache.capacity owned) :
    m.memoryUsage ≤ m.capacity := by
  have hsum : ∑ i, (m.cache.shards i).usage.toNat ≤ ∑ i, load (owned i) := by
    refine Finset.sum_le_sum fun i _ => ?_
    rw [(h.shard i).toNat_usage]
    exact Nat.mod_le _ _
  rw [UInt64.le_iff_toNat_le, memoryUsage, toNat_getMemoryUsage]
  exact (Nat.mod_le _ _).trans (hsum.trans hfits.total)

/-- **What `populate` does.** -/
theorem populate_cases {status : Status} (h : m.populate key value = some (status, m')) :
    status = .ok ∧ ∃ e c, (m.cache.shards (shardOf (hashSlice key))).insert key (hashSlice key)
        value value.size .normal = some (e, c) ∧
      m'.cache = (if m.cache.capacity < (m.cache.setShard (shardOf (hashSlice key)) c).getMemoryUsage
        then (m.cache.setShard (shardOf (hashSlice key)) c).prune
        else m.cache.setShard (shardOf (hashSlice key)) c).release e := by
  unfold populate at h
  obtain ⟨⟨e, cache⟩, hins, hm⟩ := Option.bind_eq_some_iff.1 h
  obtain ⟨⟨e', c⟩, hc, hr⟩ := Option.map_eq_some_iff.1 hins
  obtain ⟨rfl, rfl⟩ := Prod.mk.inj hr
  obtain ⟨rfl, rfl⟩ := Prod.mk.inj (Option.some.inj hm)
  exact ⟨rfl, e', c, hc, rfl⟩

theorem shards_setShard (s : ShardedLRUCache CacheValue) (j : Fin 32) (c : LRUCache CacheValue)
    (i : Fin 32) : (s.setShard j c).shards i = if i = j then c else s.shards i :=
  Function.update_apply ..

theorem shards_release (s : ShardedLRUCache CacheValue) (e : LRUHandle CacheValue) (i : Fin 32) :
    (s.release e).shards i =
      if i = shardOf e.hash then (s.shards i).release (some e) else s.shards i := by
  rw [ShardedLRUCache.release, shards_setShard]
  split
  · rename_i hi
    rw [hi]
  · rfl

/-! ### `populate` -/

/-- Shards that hold no more than before. -/
theorem Fits.mono {capacity : UInt64} (h : Fits capacity owned)
    (hle : ∀ i, load (owned' i) ≤ load (owned i)) : Fits capacity owned' :=
  ⟨fun i => (hle i).trans (h.shard i), (Finset.sum_le_sum fun i _ => hle i).trans h.total⟩

/-- One shard holds what fits it, the others nothing. -/
theorem fits_single {capacity : UInt64} {j : Fin 32} {l : List (LRUHandle CacheValue)}
    (hl : load l ≤ (perShard capacity).toNat) :
    Fits capacity (Function.update (fun _ => []) j l) := by
  have hzero (i : Fin 32) (hi : i ≠ j) : load (Function.update (fun _ => []) j l i) = 0 := by
    rw [Function.update_of_ne hi]
    rfl
  constructor
  · exact (Function.forall_update_iff _ fun _ l => load l ≤ (perShard capacity).toNat).2
      ⟨hl, fun _ _ => Nat.zero_le _⟩
  · rw [Finset.sum_eq_single j (fun i _ hi => hzero i hi) fun hj => absurd (Finset.mem_univ j) hj,
      Function.update_self]
    exact hl.trans (toNat_perShard capacity).2.2

/-- Shards that are each within their part and report no more than the
capacity together. -/
theorem fits_of_getMemoryUsage {s : ShardedLRUCache CacheValue} {capacity : UInt64}
    (hshard : ∀ i, load (owned i) ≤ (perShard capacity).toNat)
    (husage : ∀ i, (s.shards i).usage.toNat = load (owned i) % 18446744073709551616)
    (hle : ¬ capacity < s.getMemoryUsage) : Fits capacity owned := by
  obtain ⟨-, hlt, -⟩ := toNat_perShard capacity
  have hbound : ∑ i, load (owned i) ≤ 32 * (perShard capacity).toNat :=
    (Finset.sum_le_card_nsmul _ _ _ fun i _ => hshard i).trans_eq (by simp)
  have hexact (i : Fin 32) : (s.shards i).usage.toNat = load (owned i) := by
    have := hshard i
    rw [husage i]
    exact Nat.mod_eq_of_lt (by omega)
  rw [UInt64.not_lt, UInt64.le_iff_toNat_le, toNat_getMemoryUsage,
    Finset.sum_congr rfl fun i _ => hexact i, Nat.mod_eq_of_lt (by omega)] at hle
  exact ⟨hshard, hle⟩

/-- After a `populate` the shard `j` of the key holds `l`, the others
hold entries they held before. -/
theorem Holds.update (h : m.Holds latest owned) {j : Fin 32} {e : LRUHandle CacheValue}
    {l : List (LRUHandle CacheValue)} (hj : shardOf (hashSlice key) = j)
    (he : e.key = key ∧ e.value = value)
    (hcap : m'.cache.capacity = m.cache.capacity)
    (hshard : ∀ i ≠ j, Inv hashSlice (m'.cache.shards i) [] (owned' i) [] ∧
      (m'.cache.shards i).capacity = (m.cache.shards i).capacity)
    (hlast : Inv hashSlice (m'.cache.shards j) [] l [] ∧
      (m'.cache.shards j).capacity = (m.cache.shards j).capacity)
    (hsub : ∀ i, ∀ x ∈ owned' i, x ∈ owned i)
    (hl : ∀ x ∈ l, x = e ∨ x ∈ owned j ∧ x.key ≠ key) :
    m'.Holds (Function.update latest key (some value)) (Function.update owned' j l) := by
  have hmem : ∀ i, ∀ x ∈ Function.update owned' j l i,
      x = e ∧ i = j ∨ x ∈ owned i ∧ x.key ≠ key := by
    refine (Function.forall_update_iff owned' fun i l => ∀ x ∈ l,
      x = e ∧ i = j ∨ x ∈ owned i ∧ x.key ≠ key).2
      ⟨fun x hx => (hl x hx).imp_left fun hxe => ⟨hxe, rfl⟩, fun i hij x hx => ?_⟩
    refine Or.inr ⟨hsub i x hx, fun hk => hij ?_⟩
    rw [← h.home i x (hsub i x hx), hk, hj]
  refine ⟨?_, fun i => ?_, fun i x hx => ?_, fun i x hx => ?_⟩
  · exact (Function.forall_update_iff owned' fun i l =>
      Inv hashSlice (m'.cache.shards i) [] l []).2 ⟨hlast.1, fun i hij => (hshard i hij).1⟩
  · rw [hcap, ← h.capacity i]
    rcases eq_or_ne i j with rfl | hij
    · exact hlast.2
    · exact (hshard i hij).2
  · rcases hmem i x hx with ⟨rfl, rfl⟩ | ⟨hx, -⟩
    · rw [he.1, hj]
    · exact h.home i x hx
  · rcases hmem i x hx with ⟨rfl, rfl⟩ | ⟨hx, hk⟩
    · rw [he.1, he.2, Function.update_self]
    · rw [Function.update_of_ne hk]
      exact h.latest i x hx

section Populate

variable (h : m.Holds latest owned) {e : LRUHandle CacheValue} {c : LRUCache CacheValue}
  (hins : (m.cache.shards (shardOf (hashSlice key))).insert key (hashSlice key) value value.size
    .normal = some (e, c))
include h hins

/-- The shard of the key after the `insert` of a `populate`: the new
entry with its handle, and entries of other keys it held before. -/
theorem Holds.insert :
    e.key = key ∧ e.value = value ∧ e.hash = hashSlice key ∧ e.charge = value.size ∧
    c.capacity = (m.cache.shards (shardOf (hashSlice key))).capacity ∧
    c.inCache e.addr = true ∧ ∃ rest, Inv hashSlice c [e] (e :: rest) [] ∧
      load rest ≤ load (owned (shardOf (hashSlice key))) ∧
      ∀ x ∈ rest, x ∈ owned (shardOf (hashSlice key)) ∧ x.key ≠ key := by
  obtain ⟨he, hcap, hb, gone, rest, hperm, hc⟩ := (h.shard _).insert hins
  have hekey : e.key = key := by rw [he]
  refine ⟨hekey, by rw [he], by rw [he], by rw [he], hcap, hb, rest, hc, ?_, fun x hx => ?_⟩
  · rw [load_perm hperm, load_append]
    omega
  · refine ⟨hperm.mem_iff.2 (List.mem_append_right _ hx), fun hk => ?_⟩
    have hzero : outstanding [e] x = 0 := by
      rw [outstanding_cons_of_ne (hc.addr_ne_of_mem_tail hx)]
      rfl
    have htable := (hc.mem_lru_of_outstanding (List.mem_cons_of_mem _ hx) hzero).2
    have hetable := (hc.mem_table e).2 ⟨List.mem_cons_self, hb⟩
    exact hc.ne_of_mem_tail hx (hc.eq_of_key hetable htable (by rw [hk, hekey]))

/-- **Over the capacity**, `populate` leaves the new entry alone, if it
fits its shard. -/
theorem Holds.populate_over
    (hm' : m'.cache = (m.cache.setShard (shardOf (hashSlice key)) c).prune.release e) :
    ∃ owned', m'.Holds (Function.update latest key (some value)) owned' ∧
      Fits m.cache.capacity owned' := by
  obtain ⟨hekey, hevalue, hehash, hcharge, hcap, hb, rest, hc, -, -⟩ := h.insert hins
  set j := shardOf (hashSlice key) with hj
  obtain ⟨hpr, hpcap, hpb⟩ := hc.prune_of_one_handle hb
  have hshards (i : Fin 32) : m'.cache.shards i =
      if i = j then c.prune.2.release (some e) else (m.cache.shards i).prune.2 := by
    rw [hm', shards_release, hehash, ← hj, ShardedLRUCache.prune]
    dsimp only
    rw [shards_setShard]
    split <;> rfl
  obtain ⟨hdrop, hkeep⟩ := hpr.release_only_handle hpb
  obtain ⟨l, hl, hle, hlsub⟩ : ∃ l, Inv hashSlice (c.prune.2.release (some e)) [] l [] ∧
      load l ≤ (perShard m.cache.capacity).toNat ∧ ∀ x ∈ l, x = e := by
    by_cases hfull : c.prune.2.capacity < c.prune.2.usage
    · exact ⟨[], hdrop hfull, Nat.zero_le _, fun x hx => absurd hx List.not_mem_nil⟩
    · refine ⟨[e], hkeep hfull, ?_, fun x hx => List.mem_singleton.1 hx⟩
      have hone : load [e] = value.size.toNat := by simp [load, hcharge]
      rw [hpcap, hcap, h.capacity, UInt64.not_lt, UInt64.le_iff_toNat_le, hpr.toNat_usage, hone,
        Nat.mod_eq_of_lt value.size.toNat_lt] at hfull
      rwa [hone]
  refine ⟨Function.update (fun _ => []) j l, ?_, fits_single hle⟩
  refine h.update (e := e) rfl ⟨hekey, hevalue⟩ (by rw [hm']; rfl) (fun i hi => ?_) ⟨?_, ?_⟩
    (fun i x hx => absurd hx List.not_mem_nil) fun x hx => Or.inl (hlsub x hx)
  · rw [hshards, if_neg hi]
    exact (h.shard i).prune_of_no_handle
  · rw [hshards, if_pos rfl]
    exact hl
  · rw [hshards, if_pos rfl, capacity_release, hpcap, hcap]

/-- **Within the capacity** nothing is pruned, and the new entry goes
again if its shard is over its part. -/
theorem Holds.populate_within
    (hm' : m'.cache = (m.cache.setShard (shardOf (hashSlice key)) c).release e)
    (hwithin : ¬ m.cache.capacity < (m.cache.setShard (shardOf (hashSlice key)) c).getMemoryUsage) :
    ∃ owned', m'.Holds (Function.update latest key (some value)) owned' ∧
      (value.size.toNat + (perShard m.cache.capacity).toNat < 18446744073709551616 →
        Fits m.cache.capacity owned → Fits m.cache.capacity owned') := by
  obtain ⟨hekey, hevalue, hehash, hcharge, hcap, hb, rest, hc, hload, hrest⟩ := h.insert hins
  set j := shardOf (hashSlice key) with hj
  have hshards (i : Fin 32) :
      m'.cache.shards i = if i = j then c.release (some e) else m.cache.shards i := by
    rw [hm', shards_release, hehash, ← hj, shards_setShard]
    split <;> rfl
  obtain ⟨hdrop, hkeep⟩ := hc.release_only_handle hb
  have hholds {l : List (LRUHandle CacheValue)}
      (hl : Inv hashSlice (c.release (some e)) [] l []) (hsub : ∀ x ∈ l, x = e ∨ x ∈ rest) :
      m'.Holds (Function.update latest key (some value)) (Function.update owned j l) := by
    refine h.update rfl ⟨hekey, hevalue⟩ (by rw [hm']; rfl) (fun i hi => ?_) ⟨?_, ?_⟩
      (fun _ _ hx => hx) fun x hx => (hsub x hx).imp_right (hrest x)
    · rw [hshards, if_neg hi]
      exact ⟨h.shard i, rfl⟩
    · rw [hshards, if_pos rfl]
      exact hl
    · rw [hshards, if_pos rfl, capacity_release, hcap]
  by_cases hfull : c.capacity < c.usage
  · refine ⟨_, hholds (hdrop hfull) fun x hx => Or.inr hx, fun _ hfits => hfits.mono ?_⟩
    exact (Function.forall_update_iff owned fun i l => load l ≤ load (owned i)).2
      ⟨hload, fun _ _ => Nat.le_refl _⟩
  · refine ⟨_, hholds (hkeep hfull) fun x hx => List.mem_cons.1 hx, fun hno hfits => ?_⟩
    have hfit := hfits.shard j
    have hsize : load (e :: rest) = value.size.toNat + load rest := by
      rw [load, List.map_cons, List.sum_cons, hcharge, load]
    rw [hcap, h.capacity, UInt64.not_lt, UInt64.le_iff_toNat_le, hc.toNat_usage, hsize,
      Nat.mod_eq_of_lt (by omega), ← hsize] at hfull
    refine fits_of_getMemoryUsage ?_ (fun i => ?_) hwithin
    · exact (Function.forall_update_iff owned fun _ l =>
        load l ≤ (perShard m.cache.capacity).toNat).2 ⟨hfull, fun i _ => hfits.shard i⟩
    · rw [shards_setShard]
      rcases eq_or_ne i j with rfl | hi
      · rw [if_pos rfl, Function.update_self]
        exact hc.toNat_usage
      · rw [if_neg hi, Function.update_of_ne hi]
        exact (h.shard i).toNat_usage

end Populate

/-- **`populate` keeps the entries in order**, and within the capacity
unless the size of the value comes within `per_shard` of `2^64`. -/
theorem Holds.populate (h : m.Holds latest owned) {status : Status}
    (hp : m.populate key value = some (status, m')) :
    m'.cache.capacity = m.cache.capacity ∧
    ∃ owned', m'.Holds (Function.update latest key (some value)) owned' ∧
      (value.size.toNat + (perShard m.cache.capacity).toNat < 18446744073709551616 →
        Fits m.cache.capacity owned → Fits m.cache.capacity owned') := by
  obtain ⟨-, e, c, hins, hm'⟩ := populate_cases hp
  split at hm'
  · obtain ⟨owned', hholds, hfits⟩ := h.populate_over hins hm'
    exact ⟨by rw [hm']; rfl, owned', hholds, fun _ _ => hfits⟩
  · rename_i hwithin
    exact ⟨by rw [hm']; rfl, h.populate_within hins hm' hwithin⟩

theorem Holds.exists_populate (h : m.Holds latest owned)
    (hroom : (m.cache.shards (shardOf (hashSlice key))).table.HasRoom key (hashSlice key)) :
    ∃ m', m.call (.populate key value) = some m' := by
  obtain ⟨r, hins⟩ := (h.shard _).exists_insert hroom
  rw [call, CacheManager.populate, ShardedLRUCache.insert, hins]
  exact ⟨_, rfl⟩

/-! ### `probe` -/

/-- One shard lets go of some entries, the others stay as they are. -/
theorem Holds.shrink (h : m.Holds latest owned) {j : Fin 32} {c : LRUCache CacheValue}
    {l gone : List (LRUHandle CacheValue)} (hl : Inv hashSlice c [] l [])
    (hcap : c.capacity = (m.cache.shards j).capacity) (hperm : (owned j).Perm (gone ++ l)) :
    Holds ⟨m.cache.setShard j c⟩ latest (Function.update owned j l) ∧
      ∀ i, load (Function.update owned j l i) ≤ load (owned i) := by
  have hsub : ∀ i, ∀ x ∈ Function.update owned j l i, x ∈ owned i :=
    (Function.forall_update_iff owned fun i l => ∀ x ∈ l, x ∈ owned i).2
      ⟨fun x hx => hperm.mem_iff.2 (List.mem_append_right _ hx), fun _ _ _ hx => hx⟩
  refine ⟨⟨fun i => ?_, fun i => ?_, fun i x hx => h.home i x (hsub i x hx),
    fun i x hx => h.latest i x (hsub i x hx)⟩, ?_⟩
  · rw [shards_setShard]
    rcases eq_or_ne i j with rfl | hi
    · rwa [if_pos rfl, Function.update_self]
    · rw [if_neg hi, Function.update_of_ne hi]
      exact h.shard i
  · refine Eq.trans ?_ (h.capacity i)
    rw [shards_setShard]
    split
    · rename_i hi
      rw [hcap, hi]
    · rfl
  · refine (Function.forall_update_iff owned fun i l => load l ≤ load (owned i)).2
      ⟨?_, fun _ _ => Nat.le_refl _⟩
    rw [load_perm hperm, load_append]
    omega

/-- A lookup and the release of its handle. -/
theorem exists_lookup_release {c : LRUCache CacheValue} {e : LRUHandle CacheValue}
    {l : List (LRUHandle CacheValue)} (h : Inv hashSlice c [] l [])
    (hk : c.table.lookup key (hashSlice key) = some e) :
    ∃ gone rest, l.Perm (gone ++ rest) ∧
      Inv hashSlice ((c.lookup key (hashSlice key)).2.release (some e)) [] rest [] ∧
      ((c.lookup key (hashSlice key)).2.release (some e)).capacity = c.capacity := by
  have hinv := h.lookup hk (by rw [show outstanding [] e = 0 from rfl]; omega)
  have hmem := (h.lookup_eq_some_iff.1 hk).1
  obtain ⟨rest, hperm, hcons⟩ := hinv.exists_cons (h.mem_owned_of_mem_table hmem)
  have hb : (c.lookup key (hashSlice key)).2.inCache e.addr = true := by
    rw [Inv.lookup_of_some hk]
    exact ((h.mem_table e).1 hmem).2
  have hcap : (c.lookup key (hashSlice key)).2.capacity = c.capacity := by
    rw [Inv.lookup_of_some hk]
  obtain ⟨hdrop, hkeep⟩ := hcons.release_only_handle hb
  by_cases hfull : (c.lookup key (hashSlice key)).2.capacity < (c.lookup key (hashSlice key)).2.usage
  · exact ⟨[e], rest, hperm, hdrop hfull, capacity_release.trans hcap⟩
  · exact ⟨[], e :: rest, hperm, hkeep hfull, capacity_release.trans hcap⟩

/-- **`probe` misses or returns the latest value** of its key, and the
shards hold no more than before. -/
theorem Holds.probe (h : m.Holds latest owned) (key : CacheKey) :
    ((m.probe key).1 = .error cacheMiss ∨
      ∃ v, latest key = some v ∧ (m.probe key).1 = .ok v) ∧
    (m.probe key).2.cache.capacity = m.cache.capacity ∧
    ∃ owned', (m.probe key).2.Holds latest owned' ∧ ∀ i, load (owned' i) ≤ load (owned i) := by
  set j := shardOf (hashSlice key) with hj
  rcases hk : (m.cache.shards j).table.lookup key (hashSlice key) with - | e
  · have hprobe : m.probe key = (.error cacheMiss,
        ⟨m.cache.setShard j ((m.cache.shards j).lookup key (hashSlice key)).2⟩) := by
      simp only [CacheManager.probe, ShardedLRUCache.lookup, ← hj, Inv.lookup_of_none hk]
    rw [hprobe]
    have hperm : (owned j).Perm ([] ++ owned j) := List.Perm.refl _
    refine ⟨Or.inl rfl, rfl, _, h.shrink ?_ ?_ hperm⟩
    · rw [Inv.lookup_of_none hk]
      exact { h.shard j with }
    · rw [Inv.lookup_of_none hk]
  · obtain ⟨hmem, hekey⟩ := (h.shard j).lookup_eq_some_iff.1 hk
    have hown := (h.shard j).mem_owned_of_mem_table hmem
    have hhash : shardOf e.hash = j := by
      rw [(h.shard j).hashed e ((h.shard j).mem_heap_of_owned hown), h.home j e hown]
    have hprobe : m.probe key = (.ok e.value, ⟨m.cache.setShard j
        (((m.cache.shards j).lookup key (hashSlice key)).2.release (some e))⟩) := by
      simp only [CacheManager.probe, ShardedLRUCache.lookup, ← hj, Inv.lookup_of_some hk,
        ShardedLRUCache.release, hhash, setShard, Function.update_self, Function.update_idem]
    rw [hprobe]
    obtain ⟨gone, rest, hperm, hinv, hcap⟩ := exists_lookup_release (h.shard j) hk
    refine ⟨Or.inr ⟨e.value, ?_, rfl⟩, rfl, _, h.shrink hinv hcap hperm⟩
    rw [← hekey]
    exact h.latest j e hown

/-! ## Sequences of calls -/

/-- The value of the latest `populate` of each key. -/
def latestOf (calls : List ManagerCall) : CacheKey → Option CacheValue :=
  calls.foldl (fun latest call =>
    match call with
    | .populate key value => Function.update latest key (some value)
    | .probe _ => latest) fun _ => none

/-- The size of every value that is put in and `per_shard` stay below
`2^64` together. -/
def SizesFit (capacity : UInt64) (calls : List ManagerCall) : Prop :=
  ∀ key value, .populate key value ∈ calls →
    value.size.toNat + (perShard capacity).toNat < 18446744073709551616

theorem holds_new (capacity : UInt64) :
    (CacheManager.new capacity).Holds (fun _ => none) (fun _ => []) ∧
      Fits capacity (fun _ => []) := by
  have hload : load ([] : List (LRUHandle CacheValue)) = 0 := rfl
  refine ⟨⟨fun i => { (Inv.empty : Inv hashSlice (LRUCache.empty : LRUCache CacheValue) [] [] []) with },
    fun i => rfl, fun i e he => absurd he List.not_mem_nil,
    fun i e he => absurd he List.not_mem_nil⟩, fun i => ?_, ?_⟩
  · rw [hload]
    exact Nat.zero_le _
  · rw [Finset.sum_congr rfl fun i _ => hload, Finset.sum_const_zero]
    exact Nat.zero_le _

/-- **Every run keeps the entries in order.** -/
theorem exists_holds_of_run {capacity : UInt64} {calls : List ManagerCall}
    (hrun : (CacheManager.new capacity).run calls = some m) :
    m.cache.capacity = capacity ∧ ∃ owned, m.Holds (latestOf calls) owned ∧
      (SizesFit capacity calls → Fits capacity owned) := by
  induction calls using List.reverseRecOn generalizing m with
  | nil =>
    obtain rfl := Option.some.inj hrun
    exact ⟨rfl, _, (holds_new capacity).1, fun _ => (holds_new capacity).2⟩
  | append_singleton calls a ih =>
    rw [run, List.foldlM_append] at hrun
    obtain ⟨m₁, hm₁, hcall⟩ := Option.bind_eq_some_iff.1 hrun
    have hcall : m₁.call a = some m := (Option.bind_fun_some _).symm.trans hcall
    obtain ⟨hcap, owned, hholds, hfits⟩ := ih hm₁
    rw [latestOf, List.foldl_append]
    have hsub (hfit : SizesFit capacity (calls ++ [a])) : SizesFit capacity calls :=
      fun key value hmem => hfit key value (List.mem_append_left _ hmem)
    rcases a with ⟨key, value⟩ | key
    · obtain ⟨⟨status, m'⟩, hp, hm'⟩ := Option.map_eq_some_iff.1 hcall
      obtain rfl : m' = m := hm'
      obtain ⟨hcap', owned', hholds', hfits'⟩ := hholds.populate hp
      refine ⟨hcap'.trans hcap, owned', hholds', fun hfit => ?_⟩
      rw [hcap] at hfits'
      exact hfits' (hfit key value (by simp)) (hfits (hsub hfit))
    · obtain rfl := Option.some.inj hcall
      obtain ⟨-, hcap', owned', hholds', hle⟩ := hholds.probe key
      exact ⟨hcap'.trans hcap, owned', hholds', fun hfit => (hfits (hsub hfit)).mono hle⟩

/-- Each `populate` finds room for its key in the table of its shard. -/
def TablesFit (capacity : UInt64) (calls : List ManagerCall) : Prop :=
  ∀ p key value m, p ++ [.populate key value] <+: calls →
    (CacheManager.new capacity).run p = some m →
      (m.cache.shards (shardOf (hashSlice key))).table.HasRoom key (hashSlice key)

theorem exists_run {capacity : UInt64} {calls : List ManagerCall}
    (hroom : TablesFit capacity calls) : ∃ m, (CacheManager.new capacity).run calls = some m := by
  induction calls using List.reverseRecOn with
  | nil => exact ⟨_, rfl⟩
  | append_singleton calls a ih =>
    obtain ⟨m, hm⟩ := ih fun p key value m hp =>
      hroom p key value m (hp.trans (List.prefix_append calls [a]))
    obtain ⟨-, owned, hholds, -⟩ := exists_holds_of_run hm
    have hcall : ∃ m', m.call a = some m' := by
      rcases a with ⟨key, value⟩ | key
      · exact hholds.exists_populate (hroom calls key value m (List.prefix_refl _) hm)
      · exact ⟨_, rfl⟩
    obtain ⟨m', hm'⟩ := hcall
    refine ⟨m', ?_⟩
    rw [run, List.foldlM_append, ← run, hm, Option.bind_eq_bind, Option.bind_some,
      List.foldlM_cons, hm']
    rfl

/-- **What the manager guarantees.** After any calls, a `probe` misses or
returns the value of the latest `populate` of its key; and the usage is
within the capacity if the sizes of the values fit. A prefix of the calls
is a run of its own, so this holds after each of them; and they return as
long as no table has more than `2^31` keys. -/
theorem probe_and_memoryUsage_of_run (capacity : UInt64) (calls : List ManagerCall) :
    (∀ m, (CacheManager.new capacity).run calls = some m →
      (∀ key, (m.probe key).1 = .error cacheMiss ∨
        ∃ v, latestOf calls key = some v ∧ (m.probe key).1 = .ok v) ∧
      m.capacity = capacity ∧ (SizesFit capacity calls → m.memoryUsage ≤ m.capacity)) ∧
    (TablesFit capacity calls → ∃ m, (CacheManager.new capacity).run calls = some m) := by
  refine ⟨fun m hrun => ?_, exists_run⟩
  obtain ⟨hcap, owned, hholds, hfits⟩ := exists_holds_of_run hrun
  refine ⟨fun key => (hholds.probe key).1, hcap, fun hfit => hholds.memoryUsage_le ?_⟩
  rw [hcap]
  exact hfits hfit

/-- A value of one chunk of one column of `n` zeros. -/
def zeros (n : ℕ) : CacheValue := ⟨0, 0, 0, 0, [⟨[⟨List.replicate n 0⟩]⟩]⟩

theorem size_zeros (n : ℕ) : (zeros n).size = UInt64.ofNat n := by
  simp [zeros, CacheValue.size, Chunk.bytesUsage, Column.size]

theorem probe_and_memoryUsage_zeros :
    ∃ m, (CacheManager.new 3200).run [.populate [0] (zeros 5), .probe [0]] = some m ∧
      (∀ key, (m.probe key).1 = .error cacheMiss ∨
        ∃ v, latestOf [.populate [0] (zeros 5), .probe [0]] key = some v ∧
          (m.probe key).1 = .ok v) ∧ m.memoryUsage ≤ m.capacity := by
  have hroom : TablesFit 3200 [.populate [0] (zeros 5), .probe [0]] := by
    rintro (- | ⟨a, - | ⟨b, p⟩⟩) key value m ⟨rest, hrest⟩ hm
    · obtain ⟨⟨rfl, rfl⟩, -⟩ : (key = [0] ∧ value = zeros 5) ∧ rest = [.probe [0]] := by
        simpa using hrest
      obtain rfl := Option.some.inj hm
      unfold HandleTable.HasRoom
      decide +kernel
    · simp at hrest
    · simp at hrest
  obtain ⟨hall, hreturns⟩ := probe_and_memoryUsage_of_run 3200 [.populate [0] (zeros 5), .probe [0]]
  obtain ⟨m, hm⟩ := hreturns hroom
  obtain ⟨hprobe, -, husage⟩ := hall m hm
  refine ⟨m, hm, hprobe, husage fun key value hmem => ?_⟩
  obtain ⟨rfl, rfl⟩ : key = [0] ∧ value = zeros 5 := by simpa using hmem
  rw [size_zeros]
  decide

/-! ## Sizes that wrap -/

/-- A value of `2^64 - 20` bytes: `2^16` times the same chunk, which has
`2^16` times the same column of `2^32 - 1` bytes, and one column more. -/
def huge : CacheValue :=
  ⟨0, 0, 0, 0, List.replicate 65536 ⟨List.replicate 65536 ⟨List.replicate 4294967295 0⟩⟩ ++
    [⟨[⟨List.replicate 4294967276 0⟩]⟩]⟩

theorem foldl_add_replicate {α : Type} (size : α → UInt64) (x : α) (n : ℕ) (a : UInt64) :
    (List.replicate n x).foldl (fun s y => s + size y) a = a + UInt64.ofNat n * size x := by
  induction n generalizing a with
  | zero => simp
  | succ n ih =>
    rw [List.replicate_succ, List.foldl_cons, ih, UInt64.ofNat_add, add_mul, add_assoc,
      add_comm (size x), show UInt64.ofNat 1 = 1 from rfl, one_mul]

theorem size_huge : huge.size = 18446744073709551596 := by
  rw [CacheValue.size, huge, List.foldl_append, foldl_add_replicate, Chunk.bytesUsage,
    foldl_add_replicate]
  simp only [Column.size, List.length_replicate, List.foldl_cons, List.foldl_nil, Chunk.bytesUsage]
  decide

/-- `populate` with the size in place of `CacheValue::size`. -/
def populateOfSize (m : CacheManager) (key : CacheKey) (value : CacheValue) (size : UInt64) :
    Option (Status × CacheManager) := do
  let (handle, cache) ← m.cache.insert key value size .normal
  let cache := if cache.capacity < cache.getMemoryUsage then cache.prune else cache
  return (.ok, ⟨cache.release handle⟩)

theorem populate_eq {size : UInt64} (h : value.size = size) :
    m.populate key value = m.populateOfSize key value size := by
  rw [populateOfSize, ← h]
  rfl

/-- Two keys of one shard, and one of another. -/
def wrappingCalls : List ManagerCall :=
  [.populate [0] (zeros 22), .populate [9] huge, .populate [1] (zeros 15), .populate [0] (zeros 5)]

/-- **Over the capacity.** The usage of the first shard is `22 - 20` with
the second value and `22 - 20 + 5 - 22` when the last takes the place of
the first; with the 15 bytes of the other shard that makes 0, so nothing
is pruned. The shard itself is over its part and lets the new entry go. -/
theorem capacity_lt_memoryUsage_wrappingCalls :
    ∃ m, (CacheManager.new 3200).run wrappingCalls = some m ∧ m.capacity < m.memoryUsage := by
  have hrun : ((CacheManager.new 3200).run wrappingCalls).map
      (fun m => decide (m.capacity < m.memoryUsage)) = some true := by
    simp only [wrappingCalls, run, List.foldlM_cons, List.foldlM_nil, call,
      populate_eq (size_zeros _), populate_eq size_huge]
    decide +kernel
  obtain ⟨m, hm, hlt⟩ := Option.map_eq_some_iff.1 hrun
  exact ⟨m, hm, of_decide_eq_true hlt⟩

end CacheManager

end LruCache

end CppEtudes
