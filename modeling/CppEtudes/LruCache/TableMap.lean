import CppEtudes.LruCache.LinkedTable
import Mathlib.Data.Finmap

/-!
# The table of handles as a map

What a table of handles is for: a finite map from keys to handles. Each
call on the table in memory returns what the same call on the map does,
over any sequence of calls and through all resizes (`session_eq_runMap`).

The exception is the size: `_resize` does not return for more than `2^31`
handles.
-/

namespace CppEtudes

namespace LruCache

open Links

variable {ν : Type}

/-- A finite map from keys to handles. -/
abbrev TableMap (ν : Type) := Finmap fun _ : CacheKey => LRUHandle ν

namespace TableCall

/-- What a call returns and leaves of a map. -/
def onMap (m : TableMap ν) : TableCall ν → Option (LRUHandle ν) × TableMap ν
  | .insert h => (m.lookup h.key, m.insert h.key h)
  | .lookup key _ => (m.lookup key, m)
  | .remove key _ => (m.lookup key, m.erase key)

/-- A call comes with the hash of its key. -/
def Hashed (hash : CacheKey → UInt32) : TableCall ν → Prop
  | .insert h => h.hash = hash h.key
  | .lookup key k => k = hash key
  | .remove key k => k = hash key

/-- A handle to insert does not lie where another one of the table does. -/
def Apart (m : TableMap ν) : TableCall ν → Prop
  | .insert h => ∀ key e, m.lookup key = some e → e.addr = h.addr → e = h
  | .lookup _ _ => True
  | .remove _ _ => True

theorem Apart.insert {m : TableMap ν} {e x : LRUHandle ν} (h : (TableCall.insert e).Apart m)
    (hne : x.addr ≠ e.addr) : (TableCall.insert e).Apart (m.insert x.key x) := by
  intro key y hy haddr
  rcases eq_or_ne key x.key with rfl | hkey
  · rw [Finmap.lookup_insert] at hy
    exact absurd (Option.some.inj hy ▸ haddr) hne
  · rw [Finmap.lookup_insert_of_ne _ hkey] at hy
    exact h key y hy haddr

end TableCall

/-- A sequence of calls on a map. -/
def runMap : TableMap ν → List (TableCall ν) → List (Option (LRUHandle ν)) × TableMap ν
  | m, [] => ([], m)
  | m, c :: cs => ((c.onMap m).1 :: (runMap (c.onMap m).2 cs).1, (runMap (c.onMap m).2 cs).2)

/-- **The calls that are allowed** on a table, each with what the calls
before it have left. -/
def Consistent (hash : CacheKey → UInt32) (m : TableMap ν) (calls : List (TableCall ν)) : Prop :=
  ∀ (k : ℕ) (c : TableCall ν), calls[k]? = some c →
    c.Hashed hash ∧ c.Apart (runMap m (calls.take k)).2

variable {hash : CacheKey → UInt32} {t t' : HandleTable ν} {m : TableMap ν} {e : LRUHandle ν}
variable {lt : LinkedTable ν} {key : CacheKey} {c : TableCall ν} {cs : List (TableCall ν)}

/-! ## Chains and keys -/

/-- **A table that stores a map.** -/
structure Stores (hash : CacheKey → UInt32) (t : HandleTable ν) (m : TableMap ν) : Prop where
  valid : t.Valid
  hashed : ∀ e ∈ t.entries, e.hash = hash e.key
  lookup_iff : ∀ {key e}, m.lookup key = some e ↔ e ∈ t.entries ∧ e.key = key

namespace Stores

theorem empty (hash : CacheKey → UInt32) : Stores hash (HandleTable.empty : HandleTable ν) ∅ := by
  refine ⟨HandleTable.valid_empty, nofun, fun {key e} => ?_⟩
  rw [Finmap.lookup_empty]
  exact ⟨nofun, fun h => nomatch h.1⟩

theorem lookup (h : Stores hash t m) (key : CacheKey) : t.lookup key (hash key) = m.lookup key := by
  ext e
  rw [h.valid.lookup_eq_some_iff, h.lookup_iff]
  refine and_congr_right fun he => ⟨And.right, fun hk => ⟨?_, hk⟩⟩
  rw [h.hashed e he, hk]

/-- `_elems` is the number of keys. -/
theorem card_keys (h : Stores hash t m) : m.keys.card = t.entries.length := by
  have hkeys : m.keys = (t.entries.map LRUHandle.key).toFinset := by
    ext key
    rw [Finmap.mem_keys, Finmap.mem_iff, List.mem_toFinset, List.mem_map]
    exact exists_congr fun e => h.lookup_iff
  have hnd : (t.entries.map LRUHandle.key).Nodup := by
    refine List.Nodup.of_map (fun key => (hash key, key)) ?_
    have hall := h.valid.chains.keys
    rw [List.map_map]
    convert hall using 1
    refine List.map_congr_left fun e he => ?_
    exact congrArg (·, e.key) (h.hashed e he).symm
  rw [hkeys, List.toFinset_card_of_nodup hnd, List.length_map]

theorem insert (h : Stores hash t m) (he : e.hash = hash e.key) {old : Option (LRUHandle ν)}
    (ht : t.insert e = some (old, t')) : Stores hash t' (m.insert e.key e) := by
  obtain ⟨hvalid, hmem⟩ := h.valid.insert ht
  refine ⟨hvalid, fun x hx => ?_, fun {key x} => ?_⟩
  · rcases (hmem x).1 hx with rfl | ⟨hx, -⟩
    · exact he
    · exact h.hashed x hx
  · rw [hmem]
    rcases eq_or_ne key e.key with rfl | hne
    · rw [Finmap.lookup_insert]
      constructor
      · rintro heq
        obtain rfl := Option.some.inj heq
        exact ⟨.inl rfl, rfl⟩
      · rintro ⟨rfl | ⟨hx, hnot⟩, hk⟩
        · rfl
        · exact absurd ⟨by rw [h.hashed x hx, hk, he], hk⟩ hnot
    · rw [Finmap.lookup_insert_of_ne _ hne, h.lookup_iff]
      constructor
      · rintro ⟨hx, rfl⟩
        exact ⟨.inr ⟨hx, fun hsame => hne hsame.2⟩, rfl⟩
      · rintro ⟨rfl | ⟨hx, -⟩, rfl⟩
        · exact absurd rfl hne
        · exact ⟨hx, rfl⟩

theorem remove (h : Stores hash t m) (key : CacheKey) :
    Stores hash (t.remove key (hash key)).2 (m.erase key) := by
  have hmem {x : LRUHandle ν} := @HandleTable.Valid.mem_remove_iff ν t x key (hash key) h.valid
  refine ⟨h.valid.remove, fun x hx => h.hashed x (hmem.1 hx).1, fun {k x} => ?_⟩
  rw [hmem]
  rcases eq_or_ne k key with rfl | hne
  · rw [Finmap.lookup_erase]
    refine ⟨nofun, fun ⟨⟨hx, hnot⟩, hk⟩ => absurd ⟨?_, hk⟩ hnot⟩
    rw [h.hashed x hx, hk]
  · rw [Finmap.lookup_erase_ne hne, h.lookup_iff]
    exact ⟨fun ⟨hx, hk⟩ => ⟨⟨hx, fun hsame => hne (hk.symm.trans hsame.2)⟩, hk⟩,
      fun ⟨⟨hx, _⟩, hk⟩ => ⟨hx, hk⟩⟩

end Stores

theorem keys_insert (m : TableMap ν) (key : CacheKey) (e : LRUHandle ν) :
    (m.insert key e).keys = Insert.insert key m.keys := by
  ext k
  rw [Finmap.mem_keys, Finmap.mem_insert, Finset.mem_insert, Finmap.mem_keys]

theorem card_keys_insert (h : m.lookup key = none) :
    (m.insert key e).keys.card = m.keys.card + 1 := by
  rw [keys_insert, Finset.card_insert_of_notMem]
  rw [Finmap.mem_keys]
  exact Finmap.lookup_eq_none.1 h

/-- A call adds at most one key. -/
theorem card_runMap_le (m : TableMap ν) (cs : List (TableCall ν)) :
    (runMap m cs).2.keys.card ≤ m.keys.card + cs.length := by
  induction cs generalizing m with
  | nil => exact Nat.le_refl _
  | cons c cs ih =>
    have hone : (c.onMap m).2.keys.card ≤ m.keys.card + 1 := by
      rcases c with e | ⟨key, k⟩ | ⟨key, k⟩
      · exact (keys_insert m e.key e).symm ▸ Finset.card_insert_le ..
      · exact Nat.le_succ _
      · exact (Finmap.keys_erase key m).symm ▸ Nat.le_succ_of_le (Finset.card_erase_le)
    have hrest := ih (c.onMap m).2
    rw [List.length_cons]
    exact Nat.le_trans hrest (by omega)

/-! ## Sequences of calls -/

/-- **One call** on the table and on the map. -/
theorem returns_call (hlt : lt.Refines t) (hm : Stores hash t m) (hhash : c.Hashed hash)
    (hapart : c.Apart m) (hcard : (c.onMap m).2.keys.card ≤ 2 ^ 31) :
    ∃ lt' t', Returns (fun fuel => lt.call fuel c) ((c.onMap m).1.map LRUHandle.addr, lt') ∧
      lt'.Refines t' ∧ Stores hash t' (c.onMap m).2 := by
  rcases c with e | ⟨key, k⟩ | ⟨key, k⟩
  · have hlookup : t.lookup e.key e.hash = m.lookup e.key := by
      rw [show e.hash = hash e.key from hhash, hm.lookup]
    obtain ⟨t', ht⟩ := hm.valid.exists_insert fun hnone => by
      have hcard' : (m.insert e.key e).keys.card ≤ 2 ^ 31 := hcard
      rw [card_keys_insert (hlookup ▸ hnone), hm.card_keys] at hcard'
      omega
    obtain ⟨lt', hreturns, hrefines⟩ := hlt.insert hm.valid (fun x hx haddr =>
      hapart x.key x (hm.lookup_iff.2 ⟨hx, rfl⟩) haddr) ht
    rw [hlookup] at hreturns
    exact ⟨lt', t', hreturns, hrefines, hm.insert hhash ht⟩
  · obtain rfl : k = hash key := hhash
    refine ⟨lt, t, ?_, hlt, hm⟩
    have hreturns := (hlt.lookup hm.valid.chains.pos key (hash key)).map (g := fun r => (r, lt))
    rwa [hm.lookup] at hreturns
  · obtain rfl : k = hash key := hhash
    obtain ⟨lt', hreturns, hrefines⟩ := hlt.remove hm.valid key (hash key)
    rw [HandleTable.remove_fst, hm.lookup] at hreturns
    exact ⟨lt', _, hreturns, hrefines, hm.remove key⟩

theorem returns_runTable (cs : List (TableCall ν)) : ∀ {lt : LinkedTable ν} {t : HandleTable ν}
    {m : TableMap ν}, lt.Refines t → Stores hash t m → Consistent hash m cs →
    (∀ k, (runMap m (cs.take k)).2.keys.card ≤ 2 ^ 31) →
    ∃ lt' t', Returns (fun fuel => lt.run fuel cs)
        ((runMap m cs).1.map (Option.map LRUHandle.addr), lt') ∧
      lt'.Refines t' ∧ Stores hash t' (runMap m cs).2 := by
  induction cs with
  | nil => exact fun {lt t m} hlt hm _ _ => ⟨lt, t, Returns.const _, hlt, hm⟩
  | cons c cs ih =>
    intro lt t m hlt hm hcs hcard
    obtain ⟨hhash, hapart⟩ := hcs 0 c rfl
    obtain ⟨lt₁, t₁, ⟨n, hn⟩, hlt₁, hm₁⟩ := returns_call hlt hm hhash hapart (hcard 1)
    obtain ⟨lt₂, t₂, ⟨k, hk⟩, hlt₂, hm₂⟩ :=
      ih hlt₁ hm₁ (fun k => hcs (k + 1)) fun k => hcard (k + 1)
    refine ⟨lt₂, t₂, ⟨n + k, fun fuel hfuel => ?_⟩, hlt₂, hm₂⟩
    dsimp only at hn hk ⊢
    rw [LinkedTable.run, hn fuel (by omega), Option.bind_eq_bind, Option.bind_some]
    dsimp only
    rw [hk fuel (by omega)]
    rfl

/-- The handle at `a` hangs on one of the chains. -/
def LinkedTable.Linked (lt : LinkedTable ν) (a : ℕ) : Prop :=
  ∃ i l, Chain (lt.list.links i) none l ∧ a ∈ l

theorem linked_iff (hlt : lt.Refines t) (hm : Stores hash t m) (a : ℕ) :
    lt.Linked a ↔ ∃ key e, m.lookup key = some e ∧ e.addr = a := by
  constructor
  · rintro ⟨i, l, hl, ha⟩
    obtain rfl := hl.unique (hlt.holds.chain i)
    obtain ⟨e, he, rfl⟩ := List.mem_map.1 ha
    exact ⟨e.key, e, hm.lookup_iff.2 ⟨Chains.mem_flatten_iff.2 ⟨i, he⟩, rfl⟩, rfl⟩
  · rintro ⟨key, e, he, rfl⟩
    obtain ⟨i, hi⟩ := Chains.mem_flatten_iff.1 (hm.lookup_iff.1 he).1
    exact ⟨i, _, hlt.holds.chain i, List.mem_map_of_mem hi⟩

/-- **The table behaves as a map** while it has at most `2^31` keys: the
calls return what they return on the map, `_elems` counts its keys, the
number of chains is a power of two, and the handles on the chains are
those of the map. -/
theorem session_eq_runMap {calls : List (TableCall ν)} (hcalls : Consistent hash ∅ calls)
    (hcard : ∀ k, (runMap ∅ (calls.take k)).2.keys.card ≤ 2 ^ 31)
    (nextHash : ℕ → Option ℕ) (handle : ℕ → LRUHandle ν) :
    ∃ lt, Returns (fun fuel => LinkedTable.session fuel nextHash handle calls)
        ((runMap ∅ calls).1.map (Option.map LRUHandle.addr), lt) ∧
      lt.elems.toNat = (runMap ∅ calls).2.keys.card ∧
      (∃ j, lt.length.toNat = 2 ^ j) ∧ lt.list.heads.length = lt.length.toNat ∧
      ∀ a, lt.Linked a ↔ ∃ key e, (runMap ∅ calls).2.lookup key = some e ∧ e.addr = a := by
  obtain ⟨lt₀, hnew, hlt₀⟩ := LinkedTable.returns_new nextHash handle
  obtain ⟨lt, t, hreturns, hlt, hm⟩ := returns_runTable calls hlt₀ (Stores.empty hash) hcalls hcard
  have hsession := hnew.bind (g := fun lt fuel => lt.run fuel calls) hreturns
  refine ⟨lt, hsession, ?_, ?_, ?_, linked_iff hlt hm⟩
  · rw [hlt.elems, hm.valid.elems, hm.card_keys]
  · rw [hlt.length]
    obtain ⟨j, -, hj⟩ := hm.valid.pow
    exact ⟨j, hj⟩
  · rw [hlt.length, hlt.holds.length]

/-- Two handles of one hash are inserted, one of them is replaced, and the
other one taken out. -/
def collidingCalls : List (TableCall Unit) :=
  [.insert ⟨1, [1], 5, (), 1, .normal⟩, .insert ⟨2, [2], 5, (), 1, .normal⟩,
    .insert ⟨3, [1], 5, (), 1, .normal⟩, .remove [2] 5, .lookup [1] 5]

theorem session_collidingCalls :
    ∃ lt, Returns (fun fuel => LinkedTable.session fuel (fun _ => none)
        (fun a => ⟨a, [], 0, (), 0, .normal⟩) collidingCalls)
        ([none, none, some 1, some 2, some 3], lt) ∧
      lt.elems.toNat = 1 ∧ (∃ j, lt.length.toNat = 2 ^ j) ∧
      lt.list.heads.length = lt.length.toNat ∧
      ∀ a, lt.Linked a ↔ ∃ key e, (runMap ∅ collidingCalls).2.lookup key = some e ∧ e.addr = a := by
  have hempty (e : LRUHandle Unit) : (TableCall.insert e).Apart ∅ := fun key x hx =>
    nomatch (Finmap.lookup_empty key).symm.trans hx
  refine @session_eq_runMap Unit (fun _ => 5) _ ?_ (fun k => ?_) _ _
  · rintro (- | - | - | - | - | k) c hc
    · obtain rfl := Option.some.inj hc
      exact ⟨rfl, hempty _⟩
    · obtain rfl := Option.some.inj hc
      exact ⟨rfl, (hempty _).insert (by decide)⟩
    · obtain rfl := Option.some.inj hc
      exact ⟨rfl, ((hempty _).insert (by decide)).insert (by decide)⟩
    · obtain rfl := Option.some.inj hc
      exact ⟨rfl, trivial⟩
    · obtain rfl := Option.some.inj hc
      exact ⟨rfl, trivial⟩
    · exact nomatch hc
  · refine Nat.le_trans (card_runMap_le ∅ _) (Nat.le_trans (m := 5) ?_ (by decide))
    rw [Finmap.keys_empty, Finset.card_empty, Nat.zero_add]
    exact List.length_take_le' k collidingCalls

/-! ## Too many handles -/

section Overflow

/-- A key of four bytes. -/
def nthKey (i : ℕ) : CacheKey :=
  [UInt8.ofNat i, UInt8.ofNat (i / 256), UInt8.ofNat (i / 65536), UInt8.ofNat (i / 16777216)]

def nthHandle (i : ℕ) : LRUHandle Unit := ⟨i, nthKey i, 0, (), 0, .normal⟩

/-- The first `n` handles are inserted. -/
def nthInserts (n : ℕ) : List (TableCall Unit) := (List.range n).map fun i => .insert (nthHandle i)

theorem nthKey_inj {i j : ℕ} (hi : i < 4294967296) (hj : j < 4294967296)
    (h : nthKey i = nthKey j) : i = j := by
  simp only [nthKey, List.cons.injEq, ← UInt8.toNat_inj, UInt8.toNat_ofNat', and_true] at h
  omega

theorem runMap_append (m : TableMap ν) (cs ds : List (TableCall ν)) :
    (runMap m (cs ++ ds)).2 = (runMap (runMap m cs).2 ds).2 := by
  induction cs generalizing m with
  | nil => rfl
  | cons c cs ih => exact ih _

theorem nthInserts_succ (n : ℕ) :
    nthInserts (n + 1) = nthInserts n ++ [.insert (nthHandle n)] := by
  rw [nthInserts, List.range_succ, List.map_append]
  rfl

/-- **The first `n` handles in the map.** -/
theorem runMap_nthInserts {n : ℕ} (hn : n ≤ 4294967296) :
    (runMap ∅ (nthInserts n)).2.keys.card = n ∧
      ∀ key e, (runMap ∅ (nthInserts n)).2.lookup key = some e →
        ∃ i < n, e = nthHandle i ∧ key = nthKey i := by
  induction n with
  | zero => exact ⟨rfl, fun key e h => nomatch (Finmap.lookup_empty key).symm.trans h⟩
  | succ n ih =>
    obtain ⟨hcard, hlookup⟩ := ih (Nat.le_of_succ_le hn)
    have hnone : (runMap ∅ (nthInserts n)).2.lookup (nthKey n) = none := by
      refine Option.eq_none_iff_forall_ne_some.2 fun e he => ?_
      obtain ⟨i, hi, -, hkey⟩ := hlookup _ e he
      exact absurd (nthKey_inj (by omega) (by omega) hkey) (Nat.ne_of_gt hi)
    rw [nthInserts_succ, runMap_append]
    refine ⟨(card_keys_insert hnone).trans (congrArg (· + 1) hcard), fun key e he => ?_⟩
    change ((runMap ∅ (nthInserts n)).2.insert (nthKey n) (nthHandle n)).lookup key = some e at he
    rcases eq_or_ne key (nthKey n) with rfl | hne
    · rw [Finmap.lookup_insert] at he
      exact ⟨n, Nat.lt_succ_self n, (Option.some.inj he).symm, rfl⟩
    · rw [Finmap.lookup_insert_of_ne _ hne] at he
      obtain ⟨i, hi, hsame⟩ := hlookup key e he
      exact ⟨i, Nat.lt_succ_of_lt hi, hsame⟩

/-- The next handle is new to the map. -/
theorem nthHandle_new {n : ℕ} (hn : n < 4294967296) :
    (TableCall.insert (nthHandle n)).Apart (runMap ∅ (nthInserts n)).2 ∧
      (runMap ∅ (nthInserts n)).2.lookup (nthKey n) = none := by
  obtain ⟨-, hlookup⟩ := runMap_nthInserts (Nat.le_of_lt hn)
  refine ⟨fun key e he haddr => ?_, Option.eq_none_iff_forall_ne_some.2 fun e he => ?_⟩
  · obtain ⟨i, hi, rfl, -⟩ := hlookup key e he
    exact absurd haddr (Nat.ne_of_lt hi)
  · obtain ⟨i, hi, -, hkey⟩ := hlookup _ e he
    exact absurd (nthKey_inj (by omega) hn hkey.symm) (Nat.ne_of_lt hi)

theorem consistent_nthInserts {n : ℕ} (hn : n ≤ 4294967296) :
    Consistent (fun _ => 0) ∅ (nthInserts n) := by
  intro k c hc
  have hk : k < n := by
    have hlt := (List.getElem?_eq_some_iff.1 hc).1
    rwa [nthInserts, List.length_map, List.length_range] at hlt
  have htake : (nthInserts n).take k = nthInserts k := by
    rw [nthInserts, ← List.map_take, List.take_range, Nat.min_eq_left (Nat.le_of_lt hk)]
    rfl
  rw [nthInserts, List.getElem?_map, List.getElem?_range hk] at hc
  obtain rfl := Option.some.inj hc
  rw [htake]
  exact ⟨rfl, (nthHandle_new (by omega)).1⟩

/-- **`insert` does not return** where `_resize` has to make room for more
than `2^31` handles. -/
theorem insert_eq_none (hlt : lt.Refines t) (hm : Stores hash t m)
    (hapart : (TableCall.insert e).Apart m) (hnone : t.lookup e.key e.hash = none)
    (hcard : m.keys.card = 2147483648) : ∃ n, ∀ fuel, n ≤ fuel → lt.insert fuel e = none := by
  obtain ⟨lt₁, n, hlt₁, hn⟩ := hlt.insert_of_none hm.valid (fun x hx haddr =>
    hapart x.key x (hm.lookup_iff.2 ⟨hx, rfl⟩) haddr) hnone
  have hsucc : (t.elems + 1).toNat = 2147483649 := by
    rw [UInt32.toNat_add, hm.valid.elems, ← hm.card_keys, hcard]
    rfl
  have hover : (t.list.insert handleHashing e).length < (t.elems + 1).toNat := by
    have hbound := hm.valid.length_le
    rw [Chains.length_insert, hsucc]
    omega
  refine ⟨n, fun fuel hfuel => ?_⟩
  have hgrow : HandleTable.growLength lt₁.elems fuel 4 = none :=
    HandleTable.growLength_eq_none (by rw [hlt₁.elems, hsucc]; decide) fuel
  rw [hn fuel hfuel, if_pos hover, LinkedTable.resize, hgrow]
  rfl

theorem run_append_eq_none {fuel : ℕ} {r : List (Option ℕ) × LinkedTable ν}
    (h : lt.run fuel cs = some r) (hc : r.2.call fuel c = none) :
    lt.run fuel (cs ++ [c]) = none := by
  induction cs generalizing lt r with
  | nil =>
    obtain rfl := Option.some.inj h
    rw [List.nil_append, LinkedTable.run, hc]
    rfl
  | cons d cs ih =>
    rw [LinkedTable.run, Option.bind_eq_bind, Option.bind_eq_some_iff] at h
    obtain ⟨⟨r₁, lt₁⟩, hd, h⟩ := h
    obtain ⟨⟨rs, lt₂⟩, hcs, heq⟩ := Option.bind_eq_some_iff.1 h
    obtain rfl := Option.some.inj heq
    rw [List.cons_append, LinkedTable.run, hd, Option.bind_eq_bind, Option.bind_some]
    dsimp only
    rw [ih hcs hc]
    rfl

theorem not_returns_session {n k : ℕ} (hn : n = 2147483648) (hk : k = n + 1) :
    ¬ ∃ r, Returns (fun fuel => LinkedTable.session fuel (fun _ => none) nthHandle
      (nthInserts k)) r := by
  rintro ⟨r, n₃, hreturns⟩
  obtain ⟨hcard, -⟩ := runMap_nthInserts (show n ≤ 4294967296 by omega)
  obtain ⟨hapart, hnone⟩ := nthHandle_new (show n < 4294967296 by omega)
  obtain ⟨lt₀, ⟨n₀, hnew⟩, hlt₀⟩ := LinkedTable.returns_new (fun _ => none) nthHandle
  obtain ⟨lt, t, ⟨n₁, hrun⟩, hlt, hm⟩ :=
    returns_runTable (nthInserts n) hlt₀ (Stores.empty fun _ => 0)
      (consistent_nthInserts (by omega)) fun k => by
        refine Nat.le_trans (card_runMap_le ∅ _) ?_
        rw [Finmap.keys_empty, Finset.card_empty, Nat.zero_add, List.length_take, nthInserts,
          List.length_map, List.length_range]
        omega
  obtain ⟨n₂, hinsert⟩ := insert_eq_none hlt hm hapart ((hm.lookup (nthKey n)).trans hnone)
    (hcard.trans hn)
  have hcall : lt.call (n₀ + n₁ + n₂ + n₃) (.insert (nthHandle n)) = none :=
    hinsert _ (by omega)
  have hsome := hreturns (n₀ + n₁ + n₂ + n₃) (by omega)
  dsimp only at hnew hrun hsome
  rw [LinkedTable.session, hnew _ (by omega), Option.bind_eq_bind, Option.bind_some, hk,
    nthInserts_succ, run_append_eq_none (hrun _ (by omega)) hcall] at hsome
  exact nomatch hsome

/-- **One key more than `2^31`**: the last `insert` doubles 0 for ever. -/
theorem not_returns_nthInserts : Consistent (fun _ => 0) ∅ (nthInserts 2147483649) ∧
    ¬ ∃ r, Returns (fun fuel => LinkedTable.session fuel (fun _ => none) nthHandle
      (nthInserts 2147483649)) r :=
  ⟨consistent_nthInserts (by decide), not_returns_session (n := 2147483648) rfl rfl⟩

end Overflow

end LruCache

end CppEtudes
