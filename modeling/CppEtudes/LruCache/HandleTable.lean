import CppEtudes.LruCache.Model.HandleTable

/-!
# The table of handles

A table in order counts its handles in `_elems`, which never wraps: the
chains are at least as many as the handles, a power of two of at most
`2^31`. `insert` and `remove` keep it in order, and what they return and
leave is what a map from keys would.
-/

namespace CppEtudes

namespace LruCache

variable {ν : Type}

namespace HandleTable

/-- **A table in order.** -/
structure Valid (t : HandleTable ν) : Prop where
  chains : Chains.Valid handleHashing t.list
  elems : t.elems.toNat = t.entries.length
  fits : t.entries.length ≤ t.list.length
  pow : ∃ j ≤ 31, t.list.length = 2 ^ j

theorem valid_empty : (empty : HandleTable ν).Valid := by
  refine ⟨⟨Nat.succ_pos 3, fun i x hx => ?_, by simp [empty]⟩, rfl, Nat.zero_le _, 2,
    by decide, rfl⟩
  rw [empty, List.getD_eq_getElem?_getD, List.getElem?_getD_replicate_default_eq] at hx
  exact absurd hx List.not_mem_nil

variable {t t' : HandleTable ν} {e x : LRUHandle ν} {key : CacheKey} {hash : UInt32}

theorem key_eq_iff : handleHashing.key x = (hash, key) ↔ x.hash = hash ∧ x.key = key := by
  simp only [handleHashing, Prod.mk.injEq]

theorem key_eq_key_iff :
    handleHashing.key x = handleHashing.key e ↔ x.hash = e.hash ∧ x.key = e.key := key_eq_iff

/-! ## Lookup and removal -/

theorem Valid.lookup_eq_some_iff (h : t.Valid) :
    t.lookup key hash = some x ↔ x ∈ t.entries ∧ x.hash = hash ∧ x.key = key := by
  rw [lookup, h.chains.lookup_eq_some_iff, key_eq_iff]
  exact Iff.rfl

/-- Two handles of the table with one hash and one key are the same. -/
theorem Valid.eq_of_key (h : t.Valid) (hx : x ∈ t.entries) (he : e ∈ t.entries)
    (hh : x.hash = e.hash) (hk : x.key = e.key) : x = e :=
  h.chains.eq_of_key hx he (key_eq_key_iff.2 ⟨hh, hk⟩)

theorem Valid.nodup (h : t.Valid) : t.entries.Nodup := List.Nodup.of_map _ h.chains.keys

theorem Valid.length_le (h : t.Valid) : t.list.length ≤ 2147483648 := by
  obtain ⟨j, hj, hlen⟩ := h.pow
  rw [hlen]
  exact Nat.pow_le_pow_right (n := 2) (j := 31) (by decide) hj

theorem remove_fst : (t.remove key hash).1 = t.lookup key hash := by
  unfold remove
  rcases t.lookup key hash with - | e <;> rfl

/-- What `remove` leaves. -/
theorem Valid.mem_remove_iff (h : t.Valid) :
    x ∈ (t.remove key hash).2.entries ↔ x ∈ t.entries ∧ ¬ (x.hash = hash ∧ x.key = key) := by
  have herase : x ∈ (t.list.erase handleHashing (hash, key)).flatten ↔
      x ∈ t.entries ∧ ¬ (x.hash = hash ∧ x.key = key) := by
    rw [h.chains.mem_erase_iff, ne_eq, key_eq_iff]
    exact Iff.rfl
  unfold remove
  rcases hx : t.lookup key hash with - | e
  · have hnone := h.chains.lookup_eq_none_iff.1 hx
    exact ⟨fun hmem => ⟨hmem, fun hk => hnone x hmem (key_eq_iff.2 hk)⟩, And.left⟩
  · exact herase

theorem Valid.remove (h : t.Valid) : (t.remove key hash).2.Valid := by
  unfold HandleTable.remove
  rcases hx : t.lookup key hash with - | e
  · exact h
  · have hlen : t.entries.length = _ := (h.chains.erase_perm_of_some hx).length_eq
    rw [List.length_cons] at hlen
    have helems := h.elems
    have hfits := h.fits
    have hone : (1 : UInt32) ≤ t.elems := by
      rw [UInt32.le_iff_toNat_le, UInt32.toNat_one]
      omega
    refine ⟨h.chains.erase, ?_, ?_, ?_⟩
    · show (t.elems - 1).toNat = (t.list.erase handleHashing (hash, key)).flatten.length
      rw [UInt32.toNat_sub_of_le _ _ hone, UInt32.toNat_one]
      omega
    · show (t.list.erase handleHashing (hash, key)).flatten.length ≤ _
      rw [Chains.length_erase]
      omega
    · rw [Chains.length_erase]
      exact h.pow

/-! ## Resizing -/

/-- At 0 the loop goes on for ever. -/
theorem growLength_zero {elems : UInt32} (h : 0 < elems) (rounds : ℕ) :
    growLength elems rounds 0 = none := by
  induction rounds with
  | zero => rfl
  | succ rounds ih =>
    rw [growLength, if_pos h]
    exact ih

theorem toNat_mul_two {n : UInt32} {j : ℕ} (hn : n.toNat = 2 ^ j) (hj : j < 31) :
    (n * 2).toNat = 2 ^ (j + 1) := by
  have hlt : 2 ^ (j + 1) < 2 ^ 32 := Nat.pow_lt_pow_right (by decide) (by omega)
  rw [UInt32.toNat_mul, hn, Nat.pow_succ]
  rw [Nat.pow_succ] at hlt
  exact Nat.mod_eq_of_lt hlt

/-- **The loop ends with a power of two that is large enough.** -/
theorem exists_growLength_eq {elems n m : UInt32} {j : ℕ} (hn : n.toNat = 2 ^ j) :
    ∀ rounds, growLength elems rounds n = some m → (∃ i, m.toNat = 2 ^ i) ∧ elems ≤ m := by
  intro rounds
  induction rounds generalizing n j with
  | zero => exact fun h => nomatch h
  | succ rounds ih =>
    intro h
    rw [growLength] at h
    split at h
    · rename_i hlt
      rcases Nat.lt_or_ge j 31 with hj | hj
      · exact ih (toNat_mul_two hn hj) h
      · -- `2^31 * 2` is 0
        have hbound := n.toNat_lt
        have hj' : j < 32 := (Nat.pow_lt_pow_iff_right (by decide)).1 (hn ▸ hbound)
        obtain rfl : j = 31 := by omega
        have hzero : n * 2 = 0 := by
          apply UInt32.toNat_inj.1
          rw [UInt32.toNat_mul, hn]
          rfl
        rw [hzero, growLength_zero (UInt32.lt_of_le_of_lt UInt32.zero_le hlt)] at h
        exact nomatch h
    · rename_i hle
      obtain rfl := Option.some.inj h
      exact ⟨⟨j, hn⟩, UInt32.not_lt.1 hle⟩

/-- Up to `2^31` handles it does end. -/
theorem exists_growLength {elems : UInt32} (helems : elems.toNat ≤ 2147483648) (rounds : ℕ) :
    ∀ {n : UInt32} {j : ℕ}, n.toNat = 2 ^ j → j ≤ 31 → 32 ≤ rounds + j →
      ∃ m, growLength elems rounds n = some m := by
  induction rounds with
  | zero =>
    intro n j _ hj hrounds
    exact absurd hrounds (by omega)
  | succ rounds ih =>
    intro n j hn hj hrounds
    rw [growLength]
    split_ifs with hlt
    · have hj' : j < 31 := by
        rw [UInt32.lt_iff_toNat_lt, hn] at hlt
        exact (Nat.pow_lt_pow_iff_right (by decide)).1 (Nat.lt_of_lt_of_le hlt helems)
      exact ih (toNat_mul_two hn hj') hj' (by omega)
    · exact ⟨n, rfl⟩

/-- Beyond that it does not. -/
theorem growLength_eq_none {elems : UInt32} (helems : 2147483648 < elems.toNat) (rounds : ℕ) :
    growLength elems rounds 4 = none := by
  rw [Option.eq_none_iff_forall_ne_some]
  intro m hm
  obtain ⟨⟨i, hi⟩, hle⟩ := exists_growLength_eq (j := 2) rfl rounds hm
  have hi32 : i < 32 := (Nat.pow_lt_pow_iff_right (by decide)).1 (hi ▸ m.toNat_lt)
  have hpow : 2 ^ i ≤ 2 ^ 31 := Nat.pow_le_pow_right (by decide) (by omega)
  rw [UInt32.le_iff_toNat_le, hi] at hle
  omega

/-- A table that holds its handles in any number of chains is put in
order by `_resize`, if that returns. -/
theorem Valid.of_resize (hchains : Chains.Valid handleHashing t.list)
    (helems : t.elems.toNat = t.entries.length) (h : t.resize = some t') :
    t'.Valid ∧ t'.entries.Perm t.entries := by
  unfold resize at h
  rcases hgrow : growLength t.elems 31 4 with - | n
  · rw [hgrow] at h
    exact nomatch h
  rw [hgrow] at h
  obtain ⟨⟨i, hi⟩, hle⟩ := exists_growLength_eq (j := 2) rfl 31 hgrow
  have hcount : t.elems = UInt32.ofNat t.list.flatten.length := by
    rw [show t.list.flatten.length = t.elems.toNat from helems.symm, UInt32.ofNat_toNat]
  rw [Option.bind_eq_bind, Option.bind_some, if_neg (not_not.2 hcount)] at h
  obtain rfl := Option.some.inj h
  have hpos : 0 < n.toNat := by
    rw [hi]
    exact Nat.two_pow_pos i
  have hi32 : i < 32 := (Nat.pow_lt_pow_iff_right (by decide)).1 (hi ▸ n.toNat_lt)
  have hperm := Chains.rehash_perm (H := handleHashing) (t := t.list) hpos
  have hlen : (t.list.rehash handleHashing n.toNat).flatten.length = t.entries.length :=
    hperm.length_eq
  rw [UInt32.le_iff_toNat_le] at hle
  refine ⟨⟨hchains.rehash hpos, ?_, ?_, i, by omega, ?_⟩, hperm⟩
  · exact helems.trans hlen.symm
  · show (t.list.rehash handleHashing n.toNat).flatten.length ≤ _
    rw [Chains.length_rehash, hlen]
    omega
  · rw [Chains.length_rehash, hi]

/-! ## Insertion -/

theorem insert_fst {old : Option (LRUHandle ν)} (h : t.insert e = some (old, t')) :
    old = t.lookup e.key e.hash := by
  unfold insert at h
  rcases hx : t.lookup e.key e.hash with - | y
  · rw [hx] at h
    dsimp only at h
    split at h
    · obtain ⟨t₁, -, ht₁⟩ := Option.map_eq_some_iff.1 h
      exact (Prod.mk.inj ht₁).1.symm
    · exact (Prod.mk.inj (Option.some.inj h)).1.symm
  · rw [hx] at h
    exact (Prod.mk.inj (Option.some.inj h)).1.symm

/-- **`insert` keeps the table in order** and leaves the new handle with
the handles of other keys. -/
theorem Valid.insert {old : Option (LRUHandle ν)} (h : t.Valid) (ht : t.insert e = some (old, t')) :
    t'.Valid ∧ ∀ x, x ∈ t'.entries ↔
      x = e ∨ x ∈ t.entries ∧ ¬ (x.hash = e.hash ∧ x.key = e.key) := by
  have hchains : Chains.Valid handleHashing (t.list.insert handleHashing e) := h.chains.insert
  have hmem (x : LRUHandle ν) : x ∈ (t.list.insert handleHashing e).flatten ↔
      x = e ∨ x ∈ t.entries ∧ ¬ (x.hash = e.hash ∧ x.key = e.key) := by
    rw [h.chains.mem_insert_iff, ne_eq, key_eq_key_iff]
    exact Iff.rfl
  have helems := h.elems
  have hfits := h.fits
  have hbound := h.length_le
  unfold HandleTable.insert at ht
  rcases hx : t.lookup e.key e.hash with - | y
  · rw [hx] at ht
    dsimp only at ht
    have hlen : (t.list.insert handleHashing e).flatten.length = t.entries.length + 1 :=
      (h.chains.insert_perm_of_none hx).length_eq
    have hsucc : (t.elems + 1).toNat = (t.list.insert handleHashing e).flatten.length := by
      rw [UInt32.toNat_add, UInt32.toNat_one, hlen, helems]
      exact Nat.mod_eq_of_lt (by omega)
    split at ht
    · obtain ⟨t₁, hres, ht₁⟩ := Option.map_eq_some_iff.1 ht
      obtain rfl := (Prod.mk.inj ht₁).2
      obtain ⟨hvalid, hperm⟩ := Valid.of_resize (t := ⟨_, t.elems + 1⟩) hchains hsucc hres
      exact ⟨hvalid, fun x => hperm.mem_iff.trans (hmem x)⟩
    · rename_i hle
      obtain rfl := (Prod.mk.inj (Option.some.inj ht)).2
      rw [hsucc] at hle
      refine ⟨⟨hchains, hsucc, Nat.not_lt.1 hle, ?_⟩, hmem⟩
      rw [Chains.length_insert]
      exact h.pow
  · rw [hx] at ht
    obtain rfl := (Prod.mk.inj (Option.some.inj ht)).2
    obtain ⟨rest, hrest, hins⟩ := h.chains.insert_perm_of_some hx
    have hlen : (t.list.insert handleHashing e).flatten.length = t.entries.length :=
      hins.length_eq.trans hrest.length_eq.symm
    refine ⟨⟨hchains, helems.trans hlen.symm, ?_, ?_⟩, hmem⟩
    · show (t.list.insert handleHashing e).flatten.length ≤ _
      rw [hlen, Chains.length_insert]
      exact hfits
    · rw [Chains.length_insert]
      exact h.pow

/-- **`insert` returns** as long as there are at most `2^31` handles. -/
theorem Valid.exists_insert (h : t.Valid)
    (hle : t.lookup e.key e.hash = none → t.entries.length < 2147483648) :
    ∃ t', t.insert e = some (t.lookup e.key e.hash, t') := by
  unfold HandleTable.insert
  rcases hx : t.lookup e.key e.hash with - | y
  · have hlt := hle hx
    have hlen : (t.list.insert handleHashing e).flatten.length = t.entries.length + 1 :=
      (h.chains.insert_perm_of_none hx).length_eq
    have hsucc : (t.elems + 1).toNat = t.entries.length + 1 := by
      rw [UInt32.toNat_add, UInt32.toNat_one, h.elems]
      exact Nat.mod_eq_of_lt (by omega)
    dsimp only
    split_ifs with hover
    · have hle' : (t.elems + 1).toNat ≤ 2147483648 := by omega
      obtain ⟨n, hgrow⟩ := exists_growLength hle' 31 (n := 4) (j := 2) rfl (by decide) (by decide)
      have hcount : t.elems + 1 = UInt32.ofNat (t.list.insert handleHashing e).flatten.length := by
        rw [hlen, ← hsucc, UInt32.ofNat_toNat]
      rw [resize, hgrow, Option.bind_eq_bind, Option.bind_some, if_neg (not_not.2 hcount)]
      exact ⟨_, rfl⟩
    · exact ⟨_, rfl⟩
  · exact ⟨_, rfl⟩

/-- With `key` the table has at most `2^31` handles. -/
def HasRoom (t : HandleTable ν) (key : CacheKey) (hash : UInt32) : Prop :=
  t.entries.length + (if t.lookup key hash = none then 1 else 0) ≤ 2147483648

/-- A table with some of the handles has room as well. -/
theorem HasRoom.lt_of_subset (h : t.HasRoom key hash) (ht : t.Valid) (ht' : t'.Valid)
    (hsub : t'.entries ⊆ t.entries) (hnone : t'.lookup key hash = none) :
    t'.entries.length < 2147483648 := by
  unfold HasRoom at h
  rcases hx : t.lookup key hash with - | x
  · have hlen := (ht'.nodup.subperm hsub).length_le
    rw [if_pos hx] at h
    omega
  · obtain ⟨hmem, hk⟩ := ht.lookup_eq_some_iff.1 hx
    have hnot : x ∉ t'.entries := by
      intro hmem'
      rw [ht'.lookup_eq_some_iff.2 ⟨hmem', hk⟩] at hnone
      exact nomatch hnone
    have hlen := ((List.nodup_cons.2 ⟨hnot, ht'.nodup⟩).subperm
      (List.cons_subset.2 ⟨hmem, hsub⟩)).length_le
    rw [List.length_cons] at hlen
    omega

end HandleTable

end LruCache

end CppEtudes
