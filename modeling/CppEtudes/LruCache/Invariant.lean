import CppEtudes.LruCache.HandleTable
import CppEtudes.LruCache.Model.LruCache
import Mathlib.Algebra.BigOperators.Group.List.Basic
import Mathlib.Tactic.Abel

/-!
# What every call keeps

Between the calls, and at every point inside them, the entries on the
heap are of two kinds: those the cache *owns*, which it counts in its
usage and whose references it keeps, and those in *limbo*, which are
allocated and not yet in the table, or unlinked and not yet freed. `Inv`
says what holds of the first kind and that the second is out of reach.

A call is a sequence of four moves: an entry in limbo is adopted, an
owned entry changes its references or leaves the table, an owned entry
is dropped into limbo, and an entry in limbo is freed. Each move keeps
`Inv`, so each call does.
-/

namespace CppEtudes

namespace LruCache

variable {ν : Type}

/-- The handles of `hs` that stand for the entry. -/
def outstanding (hs : List (LRUHandle ν)) (e : LRUHandle ν) : ℕ := hs.countP fun x => x.addr = e.addr

/-- The sum of the charges, in numbers that do not wrap. -/
def load (l : List (LRUHandle ν)) : ℕ := (l.map fun e => e.charge.toNat).sum

theorem toNat_sum_charge (l : List (LRUHandle ν)) :
    (l.map LRUHandle.charge).sum.toNat = load l % 18446744073709551616 := by
  unfold load
  induction l with
  | nil => rfl
  | cons e l ih =>
    rw [List.map_cons, List.sum_cons, UInt64.toNat_add, ih, List.map_cons, List.sum_cons]
    omega

theorem load_append (l l' : List (LRUHandle ν)) : load (l ++ l') = load l + load l' := by
  rw [load, List.map_append, List.sum_append, load, load]

theorem load_perm {l l' : List (LRUHandle ν)} (h : l.Perm l') : load l = load l' :=
  (h.map _).sum_eq

/-- The invariant, for the handles `hs` that are outstanding. -/
structure Inv (hash : CacheKey → UInt32) (c : LRUCache ν) (hs owned limbo : List (LRUHandle ν)) :
    Prop where
  heap : c.heap.Perm (owned ++ limbo)
  addrs : (c.heap.map LRUHandle.addr).Nodup
  fresh : ∀ e ∈ c.heap, e.addr < c.fresh
  hashed : ∀ e ∈ c.heap, e.hash = hash e.key
  refs : ∀ e ∈ owned, (c.refs e.addr).toNat = outstanding hs e + (c.inCache e.addr).toNat
  live : ∀ e ∈ owned, c.refs e.addr ≠ 0
  held : ∀ e ∈ hs, e ∈ owned
  lru_nodup : c.lru.Nodup
  mem_lru : ∀ e, e ∈ c.lru ↔ e ∈ owned ∧ c.inCache e.addr = true ∧ c.refs e.addr = 1
  table : c.table.Valid
  mem_table : ∀ e, e ∈ c.table.entries ↔ e ∈ owned ∧ c.inCache e.addr = true
  usage : c.usage = (owned.map LRUHandle.charge).sum
  freed_nodup : (c.freed.map LRUHandle.addr).Nodup
  mem_freed : ∀ a, a ∈ c.freed.map LRUHandle.addr ↔ a < c.fresh ∧ a ∉ c.heap.map LRUHandle.addr

variable {hash : CacheKey → UInt32} {c c' : LRUCache ν} {e x : LRUHandle ν}
  {hs hs' owned owned' limbo limbo' : List (LRUHandle ν)}

namespace Inv

theorem empty : Inv hash (LRUCache.empty : LRUCache ν) [] [] [] where
  heap := List.Perm.refl _
  addrs := List.nodup_nil
  fresh := by simp [LRUCache.empty]
  hashed := by simp [LRUCache.empty]
  refs := by simp
  live := by simp
  held := by simp
  lru_nodup := List.nodup_nil
  mem_lru := by simp [LRUCache.empty]
  table := HandleTable.valid_empty
  mem_table := by simp [LRUCache.empty, HandleTable.empty, HandleTable.entries]
  usage := rfl
  freed_nodup := List.nodup_nil
  mem_freed := by simp [LRUCache.empty]

/-- The two kinds are told apart by their elements, not their order. -/
theorem perm (h : Inv hash c hs owned limbo) (ho : owned.Perm owned') (hl : limbo.Perm limbo') :
    Inv hash c hs owned' limbo' :=
  { h with
    heap := h.heap.trans (ho.append hl)
    refs := fun e he => h.refs e (ho.mem_iff.2 he)
    live := fun e he => h.live e (ho.mem_iff.2 he)
    held := fun e he => ho.mem_iff.1 (h.held e he)
    mem_lru := fun e => (h.mem_lru e).trans (and_congr_left' ho.mem_iff)
    mem_table := fun e => (h.mem_table e).trans (and_congr_left' ho.mem_iff)
    usage := h.usage.trans (ho.map _).sum_eq }

section Facts

variable (h : Inv hash c hs owned limbo)
include h

theorem mem_heap_of_owned (he : e ∈ owned) : e ∈ c.heap :=
  h.heap.mem_iff.2 (List.mem_append_left _ he)

theorem mem_heap_of_limbo (he : e ∈ limbo) : e ∈ c.heap :=
  h.heap.mem_iff.2 (List.mem_append_right _ he)

/-- An address is that of one entry. -/
theorem eq_of_addr (he : e ∈ c.heap) (hx : x ∈ c.heap) (ha : x.addr = e.addr) : x = e :=
  List.inj_on_of_nodup_map h.addrs hx he ha

theorem addr_ne (he : e ∈ c.heap) (hx : x ∈ c.heap) (hne : x ≠ e) : x.addr ≠ e.addr :=
  fun ha => hne (h.eq_of_addr he hx ha)

theorem nodup_append : (owned ++ limbo).Nodup :=
  h.heap.nodup_iff.1 (List.Nodup.of_map _ h.addrs)

theorem nodup_owned : owned.Nodup :=
  (List.nodup_append.1 h.nodup_append).1

theorem ne_of_mem_limbo (he : e ∈ limbo) (hx : x ∈ owned) : x ≠ e :=
  (List.nodup_append.1 h.nodup_append).2.2 x hx e he

/-- An owned entry can be put first. -/
theorem exists_cons (he : e ∈ owned) :
    ∃ rest, owned.Perm (e :: rest) ∧ Inv hash c hs (e :: rest) limbo := by
  obtain ⟨l, r, rfl⟩ := List.append_of_mem he
  exact ⟨l ++ r, List.perm_middle, h.perm List.perm_middle (List.Perm.refl _)⟩

theorem mem_owned_of_mem_lru (he : e ∈ c.lru) : e ∈ owned :=
  ((h.mem_lru e).1 he).1

theorem mem_owned_of_mem_table (he : e ∈ c.table.entries) : e ∈ owned :=
  ((h.mem_table e).1 he).1

theorem mem_table_of_mem_lru (he : e ∈ c.lru) : e ∈ c.table.entries :=
  (h.mem_table e).2 (((h.mem_lru e).1 he).imp_right And.left)

theorem lru_addrs : (c.lru.map LRUHandle.addr).Nodup :=
  h.lru_nodup.map_on fun _ hx _ hy ha => h.eq_of_addr
    (h.mem_heap_of_owned (h.mem_owned_of_mem_lru hy)) (h.mem_heap_of_owned (h.mem_owned_of_mem_lru hx)) ha

theorem toNat_usage : c.usage.toNat = load owned % 18446744073709551616 := by
  rw [h.usage, toNat_sum_charge]

/-- A lookup finds the one owned entry of the key that is in the cache. -/
theorem lookup_eq_some_iff {key : CacheKey} :
    c.table.lookup key (hash key) = some e ↔ e ∈ c.table.entries ∧ e.key = key := by
  rw [h.table.lookup_eq_some_iff]
  refine and_congr_right fun he => ⟨And.right, fun hk => ⟨?_, hk⟩⟩
  rw [h.hashed e (h.mem_heap_of_owned (h.mem_owned_of_mem_table he)), hk]

/-- In the table, an entry is told by its key. -/
theorem eq_of_key (he : e ∈ c.table.entries) (hx : x ∈ c.table.entries) (hk : x.key = e.key) :
    x = e := by
  have hhash {y : LRUHandle ν} (hy : y ∈ c.table.entries) : y.hash = hash y.key :=
    h.hashed y (h.mem_heap_of_owned (h.mem_owned_of_mem_table hy))
  exact h.table.eq_of_key hx he (by rw [hhash hx, hhash he, hk]) hk

/-- Taking out the key of an entry of the table takes out that entry. -/
theorem mem_remove_iff (he : e ∈ c.table.entries) :
    x ∈ (c.table.remove e.key e.hash).2.entries ↔ x ∈ c.table.entries ∧ x ≠ e := by
  rw [h.table.mem_remove_iff]
  refine and_congr_right fun hx => not_congr ⟨fun hk => h.eq_of_key he hx hk.2, ?_⟩
  rintro rfl
  exact ⟨rfl, rfl⟩

/-- `_lru_remove` takes out the entry. -/
theorem mem_lruRemove_iff (he : e ∈ c.heap) : x ∈ (c.lruRemove e).lru ↔ x ∈ c.lru ∧ x ≠ e := by
  simp only [LRUCache.lruRemove, List.mem_filter, decide_eq_true_eq]
  refine and_congr_right fun hx => ⟨fun ha => by rintro rfl; exact ha rfl, fun hne => ?_⟩
  exact h.addr_ne he (h.mem_heap_of_owned (h.mem_owned_of_mem_lru hx)) hne

end Facts

/-- The tail of the owned entries does not hold their head. -/
theorem ne_of_mem_tail (h : Inv hash c hs (e :: owned) limbo) (hx : x ∈ owned) : x ≠ e := by
  rintro rfl
  exact (List.nodup_cons.1 h.nodup_owned).1 hx

theorem addr_ne_of_mem_tail (h : Inv hash c hs (e :: owned) limbo) (hx : x ∈ owned) :
    x.addr ≠ e.addr :=
  h.addr_ne (h.mem_heap_of_owned List.mem_cons_self)
    (h.mem_heap_of_owned (List.mem_cons_of_mem _ hx)) (h.ne_of_mem_tail hx)

/-! ## The moves -/

/-- **An owned entry changes.** The entry `e` gets new references and may
leave or enter the LRU list and the table; nothing else is touched. -/
theorem change (h : Inv hash c hs (e :: owned) limbo)
    (hheap : c'.heap = c.heap ∧ c'.fresh = c.fresh ∧ c'.freed = c.freed)
    (hsame : ∀ a ≠ e.addr, c'.refs a = c.refs a ∧ c'.inCache a = c.inCache a)
    (hcount : ∀ x ∈ owned, outstanding hs' x = outstanding hs x)
    (hheld : ∀ x ∈ hs', x ∈ e :: owned)
    (hrefs : (c'.refs e.addr).toNat = outstanding hs' e + (c'.inCache e.addr).toNat)
    (hlive : c'.refs e.addr ≠ 0)
    (hlru : c'.lru.Nodup ∧ ∀ x, x ∈ c'.lru ↔
      x ∈ c.lru ∧ x ≠ e ∨ x = e ∧ c'.inCache e.addr = true ∧ c'.refs e.addr = 1)
    (htable : c'.table.Valid ∧ ∀ x, x ∈ c'.table.entries ↔
      x ∈ c.table.entries ∧ x ≠ e ∨ x = e ∧ c'.inCache e.addr = true)
    (husage : c'.usage = c.usage) : Inv hash c' hs' (e :: owned) limbo := by
  obtain ⟨hh, hfr, hfd⟩ := hheap
  have hother {x : LRUHandle ν} (hx : x ∈ owned) := hsame x.addr (h.addr_ne_of_mem_tail hx)
  refine
    { heap := hh ▸ h.heap, addrs := hh ▸ h.addrs, fresh := hh ▸ hfr ▸ h.fresh
      hashed := hh ▸ h.hashed, refs := fun x hx => ?_, live := fun x hx => ?_, held := hheld
      lru_nodup := hlru.1, mem_lru := fun x => ?_, table := htable.1, mem_table := fun x => ?_
      usage := husage.trans h.usage, freed_nodup := hfd ▸ h.freed_nodup
      mem_freed := hh ▸ hfr ▸ hfd ▸ h.mem_freed }
  · rcases List.mem_cons.1 hx with rfl | hx
    · exact hrefs
    · rw [(hother hx).1, (hother hx).2, hcount x hx]
      exact h.refs x (List.mem_cons_of_mem _ hx)
  · rcases List.mem_cons.1 hx with rfl | hx
    · exact hlive
    · rw [(hother hx).1]
      exact h.live x (List.mem_cons_of_mem _ hx)
  · rw [hlru.2]
    rcases eq_or_ne x e with rfl | hne
    · simp
    · rw [h.mem_lru]
      simp only [List.mem_cons, hne, ne_eq, not_false_eq_true, and_true, false_and, or_false,
        false_or]
      exact and_congr_right fun hx => by rw [(hother hx).1, (hother hx).2]
  · rw [htable.2]
    rcases eq_or_ne x e with rfl | hne
    · simp
    · rw [h.mem_table]
      simp only [List.mem_cons, hne, ne_eq, not_false_eq_true, and_true, false_and, or_false,
        false_or]
      exact and_congr_right fun hx => by rw [(hother hx).2]

/-- **An owned entry is dropped** into limbo, with no handle left. -/
theorem drop (h : Inv hash c hs (e :: owned) limbo)
    (hheap : c'.heap = c.heap ∧ c'.fresh = c.fresh ∧ c'.freed = c.freed)
    (hsame : ∀ a ≠ e.addr, c'.refs a = c.refs a ∧ c'.inCache a = c.inCache a)
    (hcount : ∀ x ∈ owned, outstanding hs' x = outstanding hs x)
    (hheld : ∀ x ∈ hs', x ∈ owned)
    (hlru : c'.lru.Nodup ∧ ∀ x, x ∈ c'.lru ↔ x ∈ c.lru ∧ x ≠ e)
    (htable : c'.table.Valid ∧ ∀ x, x ∈ c'.table.entries ↔ x ∈ c.table.entries ∧ x ≠ e)
    (husage : c'.usage = c.usage - e.charge) : Inv hash c' hs' owned (e :: limbo) := by
  obtain ⟨hh, hfr, hfd⟩ := hheap
  have hother {x : LRUHandle ν} (hx : x ∈ owned) := hsame x.addr (h.addr_ne_of_mem_tail hx)
  refine
    { heap := ?_, addrs := hh ▸ h.addrs, fresh := hh ▸ hfr ▸ h.fresh
      hashed := hh ▸ h.hashed, refs := fun x hx => ?_, live := fun x hx => ?_, held := hheld
      lru_nodup := hlru.1, mem_lru := fun x => ?_, table := htable.1, mem_table := fun x => ?_
      usage := ?_, freed_nodup := hfd ▸ h.freed_nodup
      mem_freed := hh ▸ hfr ▸ hfd ▸ h.mem_freed }
  · rw [hh]
    exact h.heap.trans List.perm_middle.symm
  · rw [(hother hx).1, (hother hx).2, hcount x hx]
    exact h.refs x (List.mem_cons_of_mem _ hx)
  · rw [(hother hx).1]
    exact h.live x (List.mem_cons_of_mem _ hx)
  · rw [hlru.2, h.mem_lru]
    constructor
    · rintro ⟨⟨hx, hb⟩, hne⟩
      have hx := List.mem_of_ne_of_mem hne hx
      exact ⟨hx, by rw [(hother hx).1, (hother hx).2]; exact hb⟩
    · rintro ⟨hx, hb⟩
      rw [(hother hx).1, (hother hx).2] at hb
      exact ⟨⟨List.mem_cons_of_mem _ hx, hb⟩, h.ne_of_mem_tail hx⟩
  · rw [htable.2, h.mem_table]
    constructor
    · rintro ⟨⟨hx, hb⟩, hne⟩
      have hx := List.mem_of_ne_of_mem hne hx
      exact ⟨hx, by rw [(hother hx).2]; exact hb⟩
    · rintro ⟨hx, hb⟩
      rw [(hother hx).2] at hb
      exact ⟨⟨List.mem_cons_of_mem _ hx, hb⟩, h.ne_of_mem_tail hx⟩
  · rw [husage, h.usage, List.map_cons, List.sum_cons]
    abel

theorem outstanding_eq_zero (h : Inv hash c hs owned limbo) (he : e ∈ limbo) :
    outstanding hs e = 0 := by
  refine List.countP_eq_zero.2 fun x hx => ?_
  have hown := h.held x hx
  simpa using h.addr_ne (h.mem_heap_of_limbo he) (h.mem_heap_of_owned hown)
    (h.ne_of_mem_limbo he hown)

/-- **An entry in limbo is adopted**: it enters the table, with one
handle and the reference of the cache. -/
theorem adopt (h : Inv hash c hs owned (e :: limbo))
    (hheap : c'.heap = c.heap ∧ c'.fresh = c.fresh ∧ c'.freed = c.freed)
    (hsame : c'.refs = c.refs ∧ c'.inCache = c.inCache ∧ c'.lru = c.lru)
    (hrefs : c.refs e.addr = 2) (hcached : c.inCache e.addr = true)
    (htable : c'.table.Valid ∧ ∀ x, x ∈ c'.table.entries ↔ x = e ∨ x ∈ c.table.entries)
    (husage : c'.usage = c.usage + e.charge) : Inv hash c' (e :: hs) (e :: owned) limbo := by
  obtain ⟨hh, hfr, hfd⟩ := hheap
  obtain ⟨hr, hb, hl⟩ := hsame
  have hcount {x : LRUHandle ν} (hx : x ∈ owned) : outstanding (e :: hs) x = outstanding hs x := by
    have hne := h.addr_ne (h.mem_heap_of_owned hx) (h.mem_heap_of_limbo List.mem_cons_self)
      (h.ne_of_mem_limbo List.mem_cons_self hx).symm
    simp [outstanding, hne]
  refine
    { heap := ?_, addrs := hh ▸ h.addrs, fresh := hh ▸ hfr ▸ h.fresh
      hashed := hh ▸ h.hashed, refs := fun x hx => ?_, live := fun x hx => ?_
      held := fun x hx => ?_, lru_nodup := hl ▸ h.lru_nodup, mem_lru := fun x => ?_
      table := htable.1, mem_table := fun x => ?_, usage := ?_, freed_nodup := hfd ▸ h.freed_nodup
      mem_freed := hh ▸ hfr ▸ hfd ▸ h.mem_freed }
  · rw [hh]
    exact h.heap.trans List.perm_middle
  · rw [hr, hb]
    rcases List.mem_cons.1 hx with rfl | hx
    · have hzero := h.outstanding_eq_zero List.mem_cons_self
      rw [outstanding] at hzero
      rw [hrefs, hcached, outstanding, List.countP_cons_of_pos (by simp), hzero]
      rfl
    · rw [hcount hx]
      exact h.refs x hx
  · rw [hr]
    rcases List.mem_cons.1 hx with rfl | hx
    · rw [hrefs]
      decide
    · exact h.live x hx
  · rcases List.mem_cons.1 hx with rfl | hx
    · exact List.mem_cons_self
    · exact List.mem_cons_of_mem _ (h.held x hx)
  · rw [hl, hr, hb, h.mem_lru, List.mem_cons]
    rcases eq_or_ne x e with rfl | hne
    · rw [hrefs]
      refine iff_of_false (fun hx => ?_) fun hx => absurd hx.2.2 (by decide)
      exact h.ne_of_mem_limbo List.mem_cons_self hx.1 rfl
    · simp [hne]
  · rw [htable.2, hb, h.mem_table, List.mem_cons]
    rcases eq_or_ne x e with rfl | hne
    · simp [hcached]
    · simp [hne]
  · rw [husage, h.usage, List.map_cons, List.sum_cons]
    abel

/-- **An entry in limbo is freed.** -/
theorem free (h : Inv hash c hs owned (e :: limbo)) : Inv hash (c.free e) hs owned limbo := by
  have he := h.mem_heap_of_limbo List.mem_cons_self
  have hheap (x : LRUHandle ν) : x ∈ (c.free e).heap ↔ x ∈ c.heap ∧ x ≠ e := by
    simp only [LRUCache.free, List.mem_filter, decide_eq_true_eq]
    exact and_congr_right fun hx => ⟨fun ha => by rintro rfl; exact ha rfl, h.addr_ne he hx⟩
  have hsub : (c.free e).heap.Sublist c.heap := List.filter_sublist
  have hnodup : c.heap.Nodup := List.Nodup.of_map _ h.addrs
  have hne : e ∉ owned ++ limbo :=
    (List.nodup_cons.1 ((List.perm_middle (a := e)).nodup_iff.1 h.nodup_append)).1
  refine
    { h with
      heap := ?_, addrs := (hsub.map _).nodup h.addrs, fresh := fun x hx => h.fresh x (hsub.mem hx)
      hashed := fun x hx => h.hashed x (hsub.mem hx), freed_nodup := ?_, mem_freed := fun a => ?_ }
  · refine (List.perm_ext_iff_of_nodup (hsub.nodup hnodup) ?_).2 fun x => ?_
    · exact (List.nodup_cons.1 ((List.perm_middle (a := e)).nodup_iff.1 h.nodup_append)).2
    · rw [hheap, h.heap.mem_iff, List.perm_middle.mem_iff, List.mem_cons]
      constructor
      · rintro ⟨rfl | hx, hxe⟩
        · exact absurd rfl hxe
        · exact hx
      · intro hx
        exact ⟨Or.inr hx, by rintro rfl; exact hne hx⟩
  · show ((c.freed ++ [e]).map LRUHandle.addr).Nodup
    rw [List.map_append, List.map_singleton, List.nodup_append]
    refine ⟨h.freed_nodup, List.nodup_singleton _, fun a ha b hb => ?_⟩
    rw [List.mem_singleton.1 hb]
    rintro rfl
    exact ((h.mem_freed _).1 ha).2 (List.mem_map_of_mem he)
  · show a ∈ (c.freed ++ [e]).map LRUHandle.addr ↔ a < c.fresh ∧ a ∉ (c.free e).heap.map LRUHandle.addr
    rw [List.map_append, List.map_singleton, List.mem_append, List.mem_singleton, h.mem_freed]
    simp only [List.mem_map, hheap, not_exists]
    constructor
    · rintro (⟨ha, hx⟩ | rfl)
      · exact ⟨ha, fun x hxa => hx x ⟨hxa.1.1, hxa.2⟩⟩
      · exact ⟨h.fresh e he, fun x hxa => hxa.1.2 (h.eq_of_addr he hxa.1.1 hxa.2)⟩
    · rintro ⟨ha, hx⟩
      rcases eq_or_ne a e.addr with hae | hae
      · exact Or.inr hae
      · refine Or.inl ⟨ha, fun x hxa => hx x ⟨⟨hxa.1, ?_⟩, hxa.2⟩⟩
        rintro rfl
        exact hae hxa.2.symm

theorem freeAll {l : List (LRUHandle ν)} (h : Inv hash c hs owned (l ++ limbo)) :
    Inv hash (c.freeAll l) hs owned limbo := by
  induction l generalizing c with
  | nil => exact h
  | cons e l ih => exact ih h.free

/-- `malloc` puts the new entry into limbo. -/
theorem allocate (h : Inv hash c hs owned limbo) (ha : e.addr = c.fresh) (hk : e.hash = hash e.key) :
    Inv hash (c.allocate e) hs owned (e :: limbo) := by
  have hne {x : LRUHandle ν} (hx : x ∈ c.heap) : x.addr ≠ e.addr := by
    have := h.fresh x hx
    omega
  have hown {x : LRUHandle ν} (hx : x ∈ owned) : x.addr ≠ e.addr := hne (h.mem_heap_of_owned hx)
  have hrefs {x : LRUHandle ν} (hx : x ∈ owned) : (c.allocate e).refs x.addr = c.refs x.addr :=
    Function.update_of_ne (hown hx) _ _
  have hcached {x : LRUHandle ν} (hx : x ∈ owned) :
      (c.allocate e).inCache x.addr = c.inCache x.addr :=
    Function.update_of_ne (hown hx) _ _
  have hmem (x : LRUHandle ν) : x ∈ (c.allocate e).heap ↔ x ∈ c.heap ∨ x = e := by
    simp [LRUCache.allocate]
  refine
    { h with
      heap := ?_, addrs := ?_, fresh := fun x hx => ?_, hashed := fun x hx => ?_
      refs := fun x hx => ?_, live := fun x hx => ?_, mem_lru := fun x => ?_
      mem_table := fun x => ?_, mem_freed := fun a => ?_ }
  · exact (List.perm_append_singleton e c.heap).trans ((h.heap.cons e).trans List.perm_middle.symm)
  · show ((c.heap ++ [e]).map LRUHandle.addr).Nodup
    rw [List.map_append, List.map_singleton, List.nodup_append]
    refine ⟨h.addrs, List.nodup_singleton _, fun a ha b hb => ?_⟩
    obtain ⟨x, hx, rfl⟩ := List.mem_map.1 ha
    rw [List.mem_singleton.1 hb]
    exact hne hx
  · show x.addr < c.fresh + 1
    rcases (hmem x).1 hx with hx | rfl
    · have := h.fresh x hx
      omega
    · omega
  · rcases (hmem x).1 hx with hx | rfl
    · exact h.hashed x hx
    · exact hk
  · rw [hrefs hx, hcached hx]
    exact h.refs x hx
  · rw [hrefs hx]
    exact h.live x hx
  · refine (h.mem_lru x).trans (and_congr_right fun hx => ?_)
    rw [hrefs hx, hcached hx]
  · refine (h.mem_table x).trans (and_congr_right fun hx => ?_)
    rw [hcached hx]
  · show a ∈ c.freed.map LRUHandle.addr ↔ a < c.fresh + 1 ∧ a ∉ (c.heap ++ [e]).map LRUHandle.addr
    rw [h.mem_freed, List.map_append, List.map_singleton, List.mem_append, List.mem_singleton, ha]
    constructor
    · rintro ⟨hlt, hnot⟩
      exact ⟨by omega, by rintro (hmem | rfl); exacts [hnot hmem, by omega]⟩
    · rintro ⟨hlt, hnot⟩
      rw [not_or] at hnot
      exact ⟨by omega, hnot.1⟩

end Inv

end LruCache

end CppEtudes
