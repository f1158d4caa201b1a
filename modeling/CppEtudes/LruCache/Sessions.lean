import CppEtudes.LruCache.Calls

/-!
# Sequences of calls on one shard

After every call of a client that releases only handles it still holds,
the reference counts, the LRU list, the table, the usage and the heap
agree; and the calls return as long as the table has at most `2^31` keys.
The counters are those of the machine: `_usage` is a `size_t` and wraps,
and so would `refs` with `2^32 - 1` handles on one entry.
-/

namespace CppEtudes

namespace LruCache

variable {ν : Type} {hash : CacheKey → UInt32}

namespace Session

/-- **The parts of a cache agree**, with each other and with the handles
that are outstanding. -/
structure Consistent (s : Session ν) : Prop where
  /-- A reference for each handle, and one for the cache. -/
  refs : ∀ e ∈ s.cache.heap, (s.cache.refs e.addr).toNat =
    outstanding s.handles e + if s.cache.inCache e.addr = true then 1 else 0
  lru_nodup : s.cache.lru.Nodup
  mem_lru : ∀ e, e ∈ s.cache.lru ↔
    e ∈ s.cache.heap ∧ s.cache.inCache e.addr = true ∧ s.cache.refs e.addr = 1
  mem_table : ∀ e, e ∈ s.cache.table.entries ↔ e ∈ s.cache.heap ∧ s.cache.inCache e.addr = true
  keys_nodup : (s.cache.table.entries.map LRUHandle.key).Nodup
  usage : s.cache.usage.toNat =
    (s.cache.heap.map fun e => e.charge.toNat).sum % 18446744073709551616
  /-- No entry is freed twice, and one that is not live has been freed. -/
  freed_nodup : (s.cache.freed.map LRUHandle.addr).Nodup
  mem_freed : ∀ a, a ∈ s.cache.freed.map LRUHandle.addr ↔
    a < s.cache.fresh ∧ a ∉ s.cache.heap.map LRUHandle.addr
  /-- An entry that has a handle has not been freed. -/
  held : ∀ e ∈ s.handles, e ∈ s.cache.heap
  /-- An entry that is not in the cache and has no handle has been freed. -/
  live : ∀ e ∈ s.cache.heap, s.cache.refs e.addr ≠ 0

/-- No entry has as many handles as would make its `refs` wrap. -/
def HandlesFit (s : Session ν) : Prop :=
  ∀ e ∈ s.cache.heap, outstanding s.handles e < 4294967295

theorem consistent_of_inv {s : Session ν} {owned : List (LRUHandle ν)}
    (h : Inv hash s.cache s.handles owned []) : s.Consistent := by
  have hheap : s.cache.heap.Perm owned := by simpa using h.heap
  refine
    { refs := fun e he => ?_, lru_nodup := h.lru_nodup
      mem_lru := fun e => (h.mem_lru e).trans (and_congr_left' hheap.mem_iff.symm)
      mem_table := fun e => (h.mem_table e).trans (and_congr_left' hheap.mem_iff.symm)
      keys_nodup := ?_, usage := ?_, freed_nodup := h.freed_nodup, mem_freed := h.mem_freed
      held := fun e he => hheap.mem_iff.2 (h.held e he)
      live := fun e he => h.live e (hheap.mem_iff.1 he) }
  · rw [h.refs e (hheap.mem_iff.1 he)]
    cases s.cache.inCache e.addr <;> rfl
  · exact h.table.nodup.map_on fun x hx y hy hk => h.eq_of_key hy hx hk
  · rw [h.toNat_usage, ← load_perm hheap]
    rfl

/-- **One call keeps the invariant.** -/
theorem exists_inv_of_call {s s' : Session ν} {owned : List (LRUHandle ν)} {a : Call ν}
    (h : Inv hash s.cache s.handles owned []) (ha : s.call hash a = some s')
    (hfit : s'.HandlesFit) : ∃ rest, Inv hash s'.cache s'.handles rest [] := by
  rcases a with ⟨key, value, charge, priority⟩ | key | n | key | - | capacity
  · -- insert
    rw [call] at ha
    obtain ⟨⟨e, c⟩, hi, hs⟩ := Option.bind_eq_some_iff.1 ha
    obtain rfl := Option.some.inj hs
    obtain ⟨-, -, -, gone, rest, -, hinv⟩ := h.insert hi
    exact ⟨e :: rest, hinv⟩
  · -- lookup
    rw [call] at ha
    rcases hk : s.cache.table.lookup key (hash key) with - | e
    · rw [Inv.lookup_of_none hk] at ha
      obtain rfl := Option.some.inj ha
      exact ⟨owned, { h with }⟩
    · have hl := Inv.lookup_of_some hk
      rw [hl] at ha
      obtain rfl := Option.some.inj ha
      have hown := h.mem_owned_of_mem_table (h.lookup_eq_some_iff.1 hk).1
      have hmax := hfit e (h.mem_heap_of_owned hown)
      rw [outstanding_cons_self] at hmax
      have hinv := h.lookup hk (by omega)
      rw [hl] at hinv
      exact ⟨owned, hinv⟩
  · -- release
    rw [call] at ha
    obtain ⟨e, hn, hs⟩ := Option.bind_eq_some_iff.1 ha
    obtain rfl := Option.some.inj hs
    obtain ⟨hlt, rfl⟩ := List.getElem?_eq_some_iff.1 hn
    exact h.release (List.getElem_cons_eraseIdx_perm hlt).symm
  · obtain rfl := Option.some.inj ha
    exact h.erase key
  · obtain rfl := Option.some.inj ha
    exact h.prune
  · obtain rfl := Option.some.inj ha
    exact h.setCapacity capacity

/-- **What a call needs to return**: room in the table for a new key, a
handle to release. -/
def Allows (hash : CacheKey → UInt32) (s : Session ν) : Call ν → Prop
  | .insert key _ _ _ => s.cache.table.HasRoom key (hash key)
  | .release n => n < s.handles.length
  | .lookup _ | .erase _ | .prune | .setCapacity _ => True

theorem exists_call {s : Session ν} {owned : List (LRUHandle ν)} {a : Call ν}
    (h : Inv hash s.cache s.handles owned []) (ha : s.Allows hash a) :
    ∃ s', s.call hash a = some s' := by
  rcases a with ⟨key, value, charge, priority⟩ | key | n | key | - | capacity
  · obtain ⟨⟨e, c⟩, hi⟩ := h.exists_insert ha
    exact ⟨⟨c, e :: s.handles⟩, by rw [call, hi]; rfl⟩
  · rw [call]
    split <;> exact ⟨_, rfl⟩
  · rw [call, List.getElem?_eq_getElem ha]
    exact ⟨_, rfl⟩
  all_goals exact ⟨_, rfl⟩

theorem run_append (s : Session ν) (p q : List (Call ν)) :
    s.run hash (p ++ q) = (s.run hash p).bind fun s => s.run hash q := List.foldlM_append ..

theorem run_singleton (s : Session ν) (a : Call ν) : s.run hash [a] = s.call hash a :=
  Option.bind_fun_some _

/-- **Every run keeps the invariant.** -/
theorem exists_inv_of_run {calls : List (Call ν)} {s : Session ν}
    (hrun : start.run hash calls = some s)
    (hfit : ∀ p s', p <+: calls → start.run hash p = some s' → s'.HandlesFit) :
    ∃ owned, Inv hash s.cache s.handles owned [] := by
  induction calls using List.reverseRecOn generalizing s with
  | nil =>
    obtain rfl := Option.some.inj hrun
    exact ⟨[], Inv.empty⟩
  | append_singleton calls a ih =>
    have hlast := hfit _ s (List.prefix_refl _) hrun
    rw [run_append] at hrun
    obtain ⟨s₁, hs₁, hcall⟩ := Option.bind_eq_some_iff.1 hrun
    rw [run_singleton] at hcall
    obtain ⟨owned, hinv⟩ := ih hs₁ fun p s' hp =>
      hfit p s' (hp.trans (List.prefix_append calls [a]))
    exact exists_inv_of_call hinv hcall hlast

theorem exists_run {calls : List (Call ν)}
    (hfit : ∀ p s', p <+: calls → start.run hash p = some s' → s'.HandlesFit)
    (hallows : ∀ p a s, p ++ [a] <+: calls → start.run hash p = some s → s.Allows hash a) :
    ∃ s, start.run hash calls = some s := by
  induction calls using List.reverseRecOn with
  | nil => exact ⟨start, rfl⟩
  | append_singleton calls a ih =>
    have hpre := List.prefix_append calls [a]
    obtain ⟨s, hs⟩ := ih (fun p s' hp => hfit p s' (hp.trans hpre))
      fun p a' s hp => hallows p a' s (hp.trans hpre)
    obtain ⟨owned, hinv⟩ := exists_inv_of_run hs fun p s' hp => hfit p s' (hp.trans hpre)
    rw [run_append, hs, Option.bind_some, run_singleton]
    exact exists_call hinv (hallows calls a s (List.prefix_refl _) hs)

/-- A call adds one handle at most. -/
theorem length_handles_le_of_call {s s' : Session ν} {a : Call ν} (ha : s.call hash a = some s') :
    s'.handles.length ≤ s.handles.length + 1 := by
  rcases a with ⟨key, value, charge, priority⟩ | key | n | key | - | capacity
  · obtain ⟨⟨e, c⟩, -, hs⟩ := Option.bind_eq_some_iff.1 ha
    obtain rfl := Option.some.inj hs
    exact Nat.le_refl _
  · rw [call] at ha
    rcases hl : s.cache.lookup key (hash key) with ⟨- | e, c⟩
    · rw [hl] at ha
      obtain rfl := Option.some.inj ha
      exact Nat.le_succ _
    · rw [hl] at ha
      obtain rfl := Option.some.inj ha
      exact Nat.le_refl _
  · obtain ⟨e, -, hs⟩ := Option.bind_eq_some_iff.1 ha
    obtain rfl := Option.some.inj hs
    exact Nat.le_succ_of_le (List.length_eraseIdx_le ..)
  all_goals
    obtain rfl := Option.some.inj ha
    exact Nat.le_succ _

theorem length_handles_le_of_run {calls : List (Call ν)} {s : Session ν}
    (hrun : start.run hash calls = some s) : s.handles.length ≤ calls.length := by
  induction calls using List.reverseRecOn generalizing s with
  | nil =>
    obtain rfl := Option.some.inj hrun
    exact Nat.le_refl _
  | append_singleton calls a ih =>
    rw [run_append] at hrun
    obtain ⟨s₁, hs₁, hcall⟩ := Option.bind_eq_some_iff.1 hrun
    rw [run_singleton] at hcall
    have hle := length_handles_le_of_call hcall
    have hih := ih hs₁
    rw [List.length_append, List.length_singleton]
    omega

/-- Fewer than `2^32 - 1` calls do not make `refs` wrap. -/
theorem handlesFit_of_run {calls : List (Call ν)} {s : Session ν}
    (hrun : start.run hash calls = some s) (hlen : calls.length < 4294967295) : s.HandlesFit := by
  intro e _
  have hcount : outstanding s.handles e ≤ s.handles.length := List.countP_le_length
  have hle := length_handles_le_of_run hrun
  omega

/-- **After each call the parts of the cache agree.** A prefix of a run
is a run, so this is what holds after every call of it; and a run whose
calls have what they need returns. -/
theorem consistent_of_run (hash : CacheKey → UInt32) (calls : List (Call ν))
    (hfit : ∀ p s', p <+: calls → start.run hash p = some s' → s'.HandlesFit) :
    (∀ s, start.run hash calls = some s → s.Consistent) ∧
      ((∀ p a s, p ++ [a] <+: calls → start.run hash p = some s → s.Allows hash a) →
        ∃ s, start.run hash calls = some s ∧ s.Consistent) := by
  have hall (s : Session ν) (hrun : start.run hash calls = some s) : s.Consistent := by
    obtain ⟨owned, hinv⟩ := exists_inv_of_run hrun hfit
    exact consistent_of_inv hinv
  refine ⟨hall, fun hallows => ?_⟩
  obtain ⟨s, hs⟩ := exists_run hfit hallows
  exact ⟨s, hs, hall s hs⟩

/-- A client that inserts one entry, looks it up and releases both
handles. -/
def insertLookupRelease : List (Call Unit) :=
  [.setCapacity 10, .insert [1] () 3 .normal, .lookup [1], .release 0, .release 0]

theorem consistent_insertLookupRelease :
    ∃ s, start.run (fun _ => 0) insertLookupRelease = some s ∧ s.Consistent := by
  refine (consistent_of_run (fun _ => 0) insertLookupRelease fun p s' hp hs' => ?_).2 ?_
  · refine handlesFit_of_run hs' (Nat.lt_of_le_of_lt hp.length_le ?_)
    decide
  · rintro p a s ⟨rest, hrest⟩ hs
    have htake : p = insertLookupRelease.take p.length := by
      rw [← hrest, List.append_assoc, List.take_left]
    have hget : insertLookupRelease[p.length]? = some a := by simp [← hrest]
    rw [htake] at hs
    generalize p.length = n at hget hs
    -- the state before each of the calls
    rcases n with - | - | - | - | - | n
    any_goals
      obtain rfl := Option.some.inj hget
      obtain rfl := Option.some.inj hs
    · trivial
    · exact Nat.le_add_left 1 2147483647
    · trivial
    · exact Nat.zero_lt_two
    · exact Nat.zero_lt_one
    · exact nomatch hget

/-! ## Where the counters wrap -/

/-- Lookups of one key, over and over. -/
theorem exists_run_lookups (hash : CacheKey → UInt32) {s : Session ν} {key : CacheKey}
    {e : LRUHandle ν}
    (hk : s.cache.table.lookup key (hash key) = some e) (n : ℕ) :
    ∃ s', s.run hash (List.replicate n (.lookup key)) = some s' ∧ s'.cache.heap = s.cache.heap ∧
      s'.cache.inCache = s.cache.inCache ∧ s'.handles = List.replicate n e ++ s.handles ∧
      s'.cache.refs e.addr = s.cache.refs e.addr + UInt32.ofNat n := by
  induction n generalizing s with
  | zero => exact ⟨s, rfl, rfl, rfl, rfl, by simp⟩
  | succ n ih =>
    have hl := Inv.lookup_of_some hk
    set s₁ : Session ν := ⟨(s.cache.lookup key (hash key)).2, e :: s.handles⟩ with hs₁
    have hcall : s.call hash (.lookup key) = some s₁ := by rw [call, hl, hs₁, hl]
    have hk₁ : s₁.cache.table.lookup key (hash key) = some e := by
      rw [hs₁, hl]
      exact hk
    have hrefs : s₁.cache.refs e.addr = s.cache.refs e.addr + 1 := by
      rw [hs₁, hl]
      exact Function.update_self ..
    obtain ⟨s', hrun, hheap, hcache, hhs, hr⟩ := ih hk₁
    refine ⟨s', ?_, ?_, ?_, ?_, ?_⟩
    · rw [List.replicate_succ, run, List.foldlM_cons, hcall]
      exact hrun
    · rw [hheap, hs₁, hl]
    · rw [hcache, hs₁, hl]
    · rw [hhs, hs₁, List.replicate_succ', List.append_assoc]
      rfl
    · rw [hr, hrefs, UInt32.ofNat_add, add_assoc, add_comm 1]
      rfl

/-- Two entries with the charges `2^64 - 1` and 1. -/
def twoInserts : List (Call Unit) :=
  [.insert [1] () 18446744073709551615 .normal, .insert [2] () 1 .normal]

/-- **Where the counters wrap.** The usage of two live entries is 0
although the sum of their charges is not; and `2^32 - 2` lookups of one
entry bring its `refs` from 2 to 0 although all its handles are
outstanding. -/
theorem counters_wrap :
    (∃ s, start.run (fun _ => 0) twoInserts = some s ∧
      s.cache.usage.toNat ≠ (s.cache.heap.map fun e => e.charge.toNat).sum) ∧
    ∃ calls : List (Call Unit), ∃ s, start.run (fun _ => 0) calls = some s ∧
      ∃ e ∈ s.cache.heap, (s.cache.refs e.addr).toNat ≠
        outstanding s.handles e + if s.cache.inCache e.addr = true then 1 else 0 := by
  constructor
  · refine ⟨_, rfl, ?_⟩
    decide
  · set e : LRUHandle Unit := ⟨0, [1], 0, (), 1, .normal⟩ with he
    have hstart : ∃ s₁, start.run (fun _ => 0) [.insert [1] () 1 .normal] = some s₁ ∧
        s₁.cache.table.lookup [1] 0 = some e ∧ s₁.cache.heap = [e] ∧ s₁.handles = [e] ∧
        s₁.cache.refs e.addr = 2 := ⟨_, rfl, rfl, rfl, rfl, rfl⟩
    obtain ⟨s₁, hs₁, hk, hheap, hhs, hrefs⟩ := hstart
    obtain ⟨s, hrun, hheap', -, hhs', hrefs'⟩ := exists_run_lookups (fun _ => 0) hk 4294967294
    refine ⟨[.insert [1] () 1 .normal] ++ List.replicate 4294967294 (.lookup [1]), s, ?_, e, ?_, ?_⟩
    · rw [run_append, hs₁]
      exact hrun
    · rw [hheap', hheap]
      exact List.mem_cons_self
    · have hpos : 0 < outstanding (List.replicate 4294967294 e ++ [e]) e :=
        List.countP_pos_iff.2 ⟨e, List.mem_append_right _ List.mem_cons_self, by simp⟩
      have hzero : ((2 : UInt32) + UInt32.ofNat 4294967294).toNat = 0 := by decide
      rw [hrefs', hrefs, hhs', hhs, hzero]
      omega

end Session

end LruCache

end CppEtudes
