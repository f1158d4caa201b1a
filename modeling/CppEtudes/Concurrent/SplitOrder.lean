import CppEtudes.Concurrent.Model.Hash
import Mathlib.Tactic.Ring

/-!
# Split order and slots

The keys of the hash table reverse the bits of an index. A slot whose
bits are among those of a key comes before that key, and dummy and
regular keys never meet; in a table of `2 ^ b` slots the keys of a slot are
those between its dummy key and the next. `PARENT_SLOT` keeps at most one
of the lowest bits of its slot, so that a second step always ends at slot
0.

Each slot below the size of the tree has an entry of its own; to create
one changes no entry.
-/

namespace CppEtudes

namespace Concurrent

/-! ## Keys -/

theorem getLsbD_reverseBitsFrom (n m : BitVec 32) {r t : ℕ} (ht : t + r = 32) (q : ℕ) :
    (reverseBitsFrom n (r + 1) (BitVec.twoPow 32 t) (BitVec.twoPow 32 31 >>> t) m).getLsbD q =
      (m.getLsbD q || (decide (q < r) && n.getLsbD (31 - q))) := by
  induction r generalizing t m with
  | zero =>
    obtain rfl : t = 32 := ht
    simp [reverseBitsFrom, BitVec.twoPow]
  | succ r ih =>
    have hpos : BitVec.twoPow 32 t ≠ 0 := by
      intro h0
      have hbit := congrArg (fun x => x.getLsbD t) h0
      simp only [BitVec.getLsbD_twoPow, BitVec.ofNat_eq_ofNat, BitVec.getLsbD_zero,
        decide_true, Bool.and_true, decide_eq_false_iff_not] at hbit
      omega
    have hi : BitVec.twoPow 32 t <<< 1 = BitVec.twoPow 32 (t + 1) := by
      rw [BitVec.twoPow, BitVec.twoPow, BitVec.shiftLeft_add]
    have hbit : n &&& BitVec.twoPow 32 t ≠ 0 ↔ n.getLsbD t = true := by
      rw [BitVec.and_twoPow]
      split_ifs with hn
      · exact iff_of_true hpos hn
      · exact iff_of_false (fun h => h rfl) hn
    -- the bit that this round sets
    have hset : (if n &&& BitVec.twoPow 32 t ≠ 0 then m ||| BitVec.twoPow 32 31 >>> t else m).getLsbD q
        = (m.getLsbD q || (decide (q = r) && n.getLsbD (31 - q))) := by
      have hj : (BitVec.twoPow 32 31 >>> t).getLsbD q = decide (q = r) := by
        rw [BitVec.getLsbD_ushiftRight, BitVec.getLsbD_twoPow, decide_eq_true (by omega : 31 < 32),
          Bool.true_and, decide_eq_decide]
        omega
      rcases Decidable.em (q = r) with rfl | hq
      · obtain rfl : t = 31 - q := by omega
        simp only [hbit]
        split_ifs with hn
        · rw [BitVec.getLsbD_or, hj, hn]
          simp
        · simp [Bool.eq_false_iff.2 hn]
      · split_ifs
        · rw [BitVec.getLsbD_or, hj]
          simp [hq]
        · simp [hq]
    rw [reverseBitsFrom, if_neg hpos, hi, ← BitVec.shiftRight_add, ih _ (by omega), hset]
    have hlt : decide (q < r + 1) = (decide (q = r) || decide (q < r)) := by
      rw [Bool.eq_iff_iff]
      simp only [decide_eq_true_eq, Bool.or_eq_true]
      omega
    rw [hlt, Bool.or_assoc, ← Bool.and_or_distrib_right]

theorem testBit_dummyKey (k q : ℕ) :
    (dummyKey k).testBit q = (decide (q < 32) && k.testBit (31 - q)) := by
  have hbits := getLsbD_reverseBitsFrom (BitVec.ofNat 32 k) 0 (r := 32) (t := 0) rfl q
  rw [dummyKey, BitVec.testBit_toNat, reverseBits, show (1 : BitVec 32) = BitVec.twoPow 32 0 from rfl,
    show (0x80000000 : BitVec 32) = BitVec.twoPow 32 31 >>> 0 by decide, hbits,
    BitVec.getLsbD_ofNat, decide_eq_true (by omega : 31 - q < 32), Bool.true_and]
  simp

theorem regularKey_eq (k : ℕ) : regularKey k = dummyKey k ||| 1 := by
  rw [regularKey, dummyKey, BitVec.toNat_or]
  rfl

theorem testBit_regularKey (k q : ℕ) :
    (regularKey k).testBit q = ((dummyKey k).testBit q || decide (q = 0)) := by
  rw [regularKey_eq, Nat.testBit_or, ← Nat.pow_zero 2, Nat.testBit_two_pow]
  simp only [eq_comm]

variable {b i j k k' s s' : ℕ}

/-- A dummy key of a slot below `2 ^ 31` is even. -/
theorem testBit_zero_dummyKey (hs : s < 2 ^ 31) : (dummyKey s).testBit 0 = false := by
  rw [testBit_dummyKey, Nat.testBit_lt_two_pow hs, Bool.and_false]

theorem dummyKey_ne_regularKey (hs : s < 2 ^ 31) (k : ℕ) : dummyKey s ≠ regularKey k := by
  intro h
  have hbit : (dummyKey s).testBit 0 = true := by
    rw [h, testBit_regularKey, decide_eq_true rfl, Bool.or_true]
  exact absurd (hbit.symm.trans (testBit_zero_dummyKey hs)) (by decide)

theorem regularKey_inj (hk : k < 2 ^ 31) (hk' : k' < 2 ^ 31) (h : regularKey k = regularKey k') :
    k = k' := by
  refine Nat.eq_of_testBit_eq fun q => ?_
  rcases Nat.lt_or_ge q 31 with hq | hq
  · have hbit := congrArg (Nat.testBit · (31 - q)) h
    simp only [testBit_regularKey, testBit_dummyKey] at hbit
    rw [show 31 - (31 - q) = q by omega, decide_eq_true (by omega : 31 - q < 32),
      decide_eq_false (by omega : ¬ 31 - q = 0)] at hbit
    simpa using hbit
  · have hpow : 2 ^ 31 ≤ 2 ^ q := Nat.pow_le_pow_right (by omega) hq
    rw [Nat.testBit_lt_two_pow (hk.trans_le hpow), Nat.testBit_lt_two_pow (hk'.trans_le hpow)]

/-- **Split order**: a slot whose bits are bits of the key comes before
it. -/
theorem dummyKey_lt_regularKey (hs : s &&& k = s) (hk : k < 2 ^ 31) :
    dummyKey s < regularKey k := by
  have hle : dummyKey s ≤ dummyKey k := by
    have hand : dummyKey s = dummyKey s &&& dummyKey k := by
      refine Nat.eq_of_testBit_eq fun q => ?_
      rw [Nat.testBit_and, testBit_dummyKey, testBit_dummyKey]
      nth_rewrite 1 [← hs]
      rw [Nat.testBit_and]
      rcases decide (q < 32) <;> simp
    rw [hand]
    exact Nat.and_le_right
  have hs31 : s < 2 ^ 31 := by
    rw [← hs]
    exact Nat.and_le_right.trans_lt hk
  refine lt_of_le_of_ne (hle.trans ?_) (dummyKey_ne_regularKey hs31 k)
  rw [regularKey_eq]
  exact Nat.left_le_or

/-! With `2 ^ b` slots, the dummy keys of the slots are the multiples of
`2 ^ (32 - b)`, and the keys of one slot lie behind its dummy key, before
the next multiple. -/

theorem dummyKey_inj (hs : s < 2 ^ 32) (hs' : s' < 2 ^ 32) (h : dummyKey s = dummyKey s') :
    s = s' := by
  refine Nat.eq_of_testBit_eq fun q => ?_
  rcases Nat.lt_or_ge q 32 with hq | hq
  · have hbit := congrArg (Nat.testBit · (31 - q)) h
    simp only [testBit_dummyKey] at hbit
    rw [show 31 - (31 - q) = q by omega, decide_eq_true (by omega : 31 - q < 32)] at hbit
    simpa using hbit
  · have hpow : 2 ^ 32 ≤ 2 ^ q := Nat.pow_le_pow_right (by omega) hq
    rw [Nat.testBit_lt_two_pow (hs.trans_le hpow), Nat.testBit_lt_two_pow (hs'.trans_le hpow)]

theorem dummyKey_dvd (hb : b ≤ 32) (hi : i < 2 ^ b) : 2 ^ (32 - b) ∣ dummyKey i := by
  refine Nat.dvd_of_mod_eq_zero (Nat.eq_of_testBit_eq fun q => ?_)
  rw [Nat.testBit_mod_two_pow, testBit_dummyKey, Nat.zero_testBit]
  rcases Nat.lt_or_ge q (32 - b) with hq | hq
  · have hpow : 2 ^ b ≤ 2 ^ (31 - q) := Nat.pow_le_pow_right (by omega) (by omega)
    rw [Nat.testBit_lt_two_pow (hi.trans_le hpow), Bool.and_false, Bool.and_false]
  · rw [decide_eq_false (by omega), Bool.false_and]

theorem regularKey_div (hb : b ≤ 31) (k : ℕ) :
    regularKey k / 2 ^ (32 - b) = dummyKey (k % 2 ^ b) / 2 ^ (32 - b) := by
  refine Nat.eq_of_testBit_eq fun q => ?_
  rw [Nat.testBit_div_two_pow, Nat.testBit_div_two_pow, testBit_regularKey, testBit_dummyKey,
    testBit_dummyKey, Nat.testBit_mod_two_pow, decide_eq_false (by omega : ¬ q + (32 - b) = 0),
    Bool.or_false]
  rcases Nat.lt_or_ge (q + (32 - b)) 32 with hq | hq
  · rw [decide_eq_true (by omega : 31 - (q + (32 - b)) < b), Bool.true_and]
  · rw [decide_eq_false (by omega), Bool.false_and, Bool.false_and]

/-- **The range of a slot**, behind its dummy key. -/
theorem regularKey_mem_range (hb : b ≤ 31) (k : ℕ) :
    dummyKey (k % 2 ^ b) < regularKey k ∧
      regularKey k < dummyKey (k % 2 ^ b) + 2 ^ (32 - b) := by
  have hlt : k % 2 ^ b < 2 ^ b := Nat.mod_lt _ (Nat.two_pow_pos b)
  have hdummy : dummyKey (k % 2 ^ b) / 2 ^ (32 - b) * 2 ^ (32 - b) = dummyKey (k % 2 ^ b) :=
    Nat.div_mul_cancel (dummyKey_dvd (by omega) hlt)
  have hrest : regularKey k % 2 ^ (32 - b) < 2 ^ (32 - b) := Nat.mod_lt _ (Nat.two_pow_pos _)
  have hkey := Nat.div_add_mod' (regularKey k) (2 ^ (32 - b))
  rw [regularKey_div hb, hdummy] at hkey
  have hslot : k % 2 ^ b < 2 ^ 31 := hlt.trans_le (Nat.pow_le_pow_right (by omega) hb)
  have hne := dummyKey_ne_regularKey hslot k
  omega

/-- Two dummy keys of a table of `2 ^ b` slots are at least one range
apart. -/
theorem dummyKey_add_le (hb : b ≤ 32) (hi : i < 2 ^ b) (hj : j < 2 ^ b)
    (h : dummyKey i < dummyKey j) : dummyKey i + 2 ^ (32 - b) ≤ dummyKey j := by
  obtain ⟨x, hx⟩ := dummyKey_dvd hb hi
  obtain ⟨y, hy⟩ := dummyKey_dvd hb hj
  rw [hx, hy] at h ⊢
  rw [← Nat.mul_succ]
  exact Nat.mul_le_mul_left _ (Nat.lt_of_mul_lt_mul_left h)

/-- A key belongs to slot `i` of `2 ^ b` if it lies between the dummy key
of the slot and the next one. -/
theorem mod_eq_iff_between (hb : b ≤ 31) (hi : i < 2 ^ b) (k : ℕ) :
    k % 2 ^ b = i ↔ dummyKey i < regularKey k ∧
      ∀ j < 2 ^ b, dummyKey i < dummyKey j → regularKey k < dummyKey j := by
  obtain ⟨hlow, hhigh⟩ := regularKey_mem_range hb k
  have hmod : k % 2 ^ b < 2 ^ b := Nat.mod_lt _ (Nat.two_pow_pos b)
  constructor
  · rintro rfl
    refine ⟨hlow, fun j hj hij => ?_⟩
    have := dummyKey_add_le (by omega) hi hj hij
    omega
  · rintro ⟨hi', hnext⟩
    have hpow : 2 ^ b ≤ 2 ^ 32 := Nat.pow_le_pow_right (by omega) (by omega)
    refine dummyKey_inj (hmod.trans_le hpow) (hi.trans_le hpow) ?_
    -- the dummy key of the key's own slot is on neither side
    rcases Nat.lt_trichotomy (dummyKey i) (dummyKey (k % 2 ^ b)) with h | h | h
    · have := hnext _ hmod h
      omega
    · exact h.symm
    · have := dummyKey_add_le (by omega) hmod hi h
      omega

/-- **Split ordering.** The keys of a slot are those between its dummy key
and the next one, in a table of any size; no two keys share a regular key,
and none is a dummy key. -/
theorem split_ordering {b : ℕ} (hb : b ≤ 31) :
    (∀ i < 2 ^ b, ∀ k < 2 ^ 31, k % 2 ^ b = i ↔ dummyKey i < regularKey k ∧
      ∀ j < 2 ^ b, dummyKey i < dummyKey j → regularKey k < dummyKey j) ∧
    (∀ k < 2 ^ 31, ∀ k' < 2 ^ 31, regularKey k = regularKey k' → k = k') ∧
    ∀ k < 2 ^ 31, ∀ s < 2 ^ 31, regularKey k ≠ dummyKey s :=
  ⟨fun _ hi k _ => mod_eq_iff_between hb hi k, fun _ hk _ hk' => regularKey_inj hk hk',
    fun k _ _ hs h => dummyKey_ne_regularKey hs k h.symm⟩

theorem split_ordering_four : (2 : ℕ) ≤ 31 ∧ ∀ k < 2 ^ 31, k % 2 ^ 2 = 1 ↔
    dummyKey 1 < regularKey k ∧ ∀ j < 2 ^ 2, dummyKey 1 < dummyKey j → regularKey k < dummyKey j :=
  ⟨by decide, (split_ordering (b := 2) (by decide)).1 1 (by decide)⟩

/-! ## Parents -/

theorem parentSlot_eq {n : ℕ} (h0 : 0 < n) (h : n < 2 ^ 32) :
    parentSlot n = some (n &&& 2 ^ ((n.log2 + 4) % 32)) := by
  have hlog : n.log2 < 32 := (Nat.log2_lt (by omega)).2 h
  have hcount : Machine.toSizeT (4 - 1 - ((31 - n.log2 : ℕ) : ℤ)) % 32 = (n.log2 + 4) % 32 := by
    unfold Machine.toSizeT
    omega
  simp only [parentSlot, Machine.builtinClz, if_neg (by omega : n ≠ 0), Option.map_some, hcount,
    Nat.one_shiftLeft]

/-- A slot below `2 ^ 28` loses all its bits. -/
theorem parentSlot_of_lt {n : ℕ} (h0 : 0 < n) (h : n < 2 ^ 28) : parentSlot n = some 0 := by
  have hlog : n.log2 < 28 := (Nat.log2_lt (by omega)).2 h
  rw [parentSlot_eq h0 (by omega), Nat.mod_eq_of_lt (by omega), Option.some.injEq]
  refine Nat.eq_of_testBit_eq fun q => ?_
  have hlt : n < 2 ^ (n.log2 + 4) :=
    Nat.lt_log2_self.trans_le (Nat.pow_le_pow_right (by omega) (by omega))
  rw [Nat.testBit_and, Nat.testBit_two_pow, Nat.zero_testBit]
  rcases Decidable.em (n.log2 + 4 = q) with rfl | hq
  · rw [Nat.testBit_lt_two_pow hlt, Bool.false_and]
  · rw [decide_eq_false hq, Bool.and_false]

/-- **`PARENT_SLOT`** keeps some of the bits of its slot, and is small. -/
theorem parentSlot_spec {n : ℕ} (h0 : 0 < n) (h : n < 2 ^ 32) :
    ∃ q, parentSlot n = some q ∧ q &&& n = q ∧ q < n ∧ q < 2 ^ 28 := by
  rcases Nat.lt_or_ge n (2 ^ 28) with hlow | hhigh
  · exact ⟨0, parentSlot_of_lt h0 hlow, Nat.zero_and n, h0, by decide⟩
  · have hlog : n.log2 < 32 := (Nat.log2_lt (by omega)).2 h
    have hlog' : 28 ≤ n.log2 := (Nat.le_log2 (by omega)).2 hhigh
    have hle : n &&& 2 ^ ((n.log2 + 4) % 32) ≤ 2 ^ 3 :=
      Nat.and_le_right.trans (Nat.pow_le_pow_right (by omega) (by omega))
    refine ⟨_, parentSlot_eq h0 h, ?_, by omega, by omega⟩
    rw [Nat.and_comm, ← Nat.and_assoc, Nat.and_self]

/-! ## Slots -/

/-- The entry of a slot. -/
def cellOf : (n : ℕ) → ℕ → Cell n
  | 0, slotI => slotIndex 0 slotI
  | n + 1, slotI => (slotIndex (n + 1) slotI, cellOf n slotI)

theorem slotIndex_val (level i : ℕ) : (slotIndex level i).val = i / 512 ^ level % 512 := by
  have hmask : slotIndexMask = 2 ^ 9 - 1 := rfl
  have hpow : (2 : ℕ) ^ (level * 9) = 512 ^ level := by
    rw [Nat.mul_comm, Nat.pow_mul]
  simp only [slotIndex, hmask, slotIndexShift, Nat.and_two_pow_sub_one_eq_mod,
    Nat.shiftRight_eq_div_pow, hpow]

/-- Distinct slots of the tree have distinct entries. -/
theorem cellOf_mod {n i j : ℕ} (h : cellOf n i = cellOf n j) :
    i % 512 ^ (n + 1) = j % 512 ^ (n + 1) := by
  induction n with
  | zero =>
    have hv : (slotIndex 0 i).val = (slotIndex 0 j).val := congrArg Fin.val h
    simpa [slotIndex_val] using hv
  | succ n ih =>
    obtain ⟨hi, hc⟩ := Prod.mk.inj h
    have hv : i / 512 ^ (n + 1) % 512 = j / 512 ^ (n + 1) % 512 := by
      rw [← slotIndex_val, ← slotIndex_val, hi]
    rw [Nat.pow_succ 512 (n + 1), Nat.mod_mul, Nat.mod_mul, ih hc, hv]

theorem cellOf_inj {n i j : ℕ} (hi : i < 512 ^ (n + 1)) (hj : j < 512 ^ (n + 1))
    (h : cellOf n i = cellOf n j) : i = j := by
  rw [← Nat.mod_eq_of_lt hi, ← Nat.mod_eq_of_lt hj]
  exact cellOf_mod h

namespace SlotTree

theorem load_new : (n : ℕ) → (c : Cell n) → load n (new n) c = none
  | 0, _ => rfl
  | _ + 1, _ => rfl

/-- The array below an entry, or a new one. -/
theorem getSlot_create_succ (slotI n : ℕ) (t : SlotTree (n + 1)) :
    getSlot slotI true (n + 1) t =
      let idx := slotIndex (n + 1) slotI
      let r := getSlot slotI true n ((t idx).getD (new n))
      (r.1.map fun c => (idx, c), Function.update t idx (some r.2)) := by
  rw [getSlot]
  dsimp only
  rcases t (slotIndex (n + 1) slotI) with - | sub
  · rfl
  · rfl

theorem getSlot_create (slotI n : ℕ) (t : SlotTree n) :
    (getSlot slotI true n t).1 = some (cellOf n slotI) := by
  induction n with
  | zero => rfl
  | succ n ih =>
    rw [getSlot_create_succ]
    dsimp only
    rw [ih]
    rfl

/-- To create an entry changes none. -/
theorem load_getSlot_create (slotI n : ℕ) (t : SlotTree n) (c : Cell n) :
    load n (getSlot slotI true n t).2 c = load n t c := by
  induction n with
  | zero => rfl
  | succ n ih =>
    obtain ⟨i, c⟩ := c
    rw [getSlot_create_succ]
    dsimp only [load]
    rcases eq_or_ne i (slotIndex (n + 1) slotI) with rfl | hi
    · rw [Function.update_self, Option.bind_some, ih]
      rcases t (slotIndex (n + 1) slotI) with - | sub
      · exact load_new n c
      · rfl
    · rw [Function.update_of_ne hi]

theorem load_store_create_self (slotI n : ℕ) (t : SlotTree n) (v : Option ℕ) :
    load n (store v n (getSlot slotI true n t).2 (cellOf n slotI)) (cellOf n slotI) = v := by
  induction n with
  | zero => exact Function.update_self ..
  | succ n ih =>
    rw [getSlot_create_succ]
    dsimp only [load, store, cellOf]
    rw [Function.update_self, Function.update_self, Option.map_some, Option.bind_some, ih]

theorem load_store_of_ne {n : ℕ} (t : SlotTree n) {c c' : Cell n} (h : c' ≠ c) (v : Option ℕ) :
    load n (store v n t c) c' = load n t c' := by
  induction n with
  | zero => exact Function.update_of_ne h _ _
  | succ n ih =>
    obtain ⟨i, c⟩ := c
    obtain ⟨i', c'⟩ := c'
    dsimp only [load, store]
    rcases eq_or_ne i' i with rfl | hi
    · rw [Function.update_self]
      have hc : c' ≠ c := fun hc => h (hc ▸ rfl)
      rcases t i' with - | sub
      · rfl
      · exact ih sub hc
    · rw [Function.update_of_ne hi]

/-- What is read through `get_slot` without creating. -/
theorem bind_getSlot_load (slotI n : ℕ) (t : SlotTree n) :
    (getSlot slotI false n t).1.bind (load n t) = load n t (cellOf n slotI) := by
  induction n with
  | zero => rfl
  | succ n ih =>
    rw [getSlot]
    dsimp only [cellOf]
    rw [load]
    rcases hsub : t (slotIndex (n + 1) slotI) with - | sub
    · rfl
    · rw [Option.bind_some, ← ih sub]
      rcases hcell : (getSlot slotI false n sub).1 with - | c
      · simp [hcell]
      · simp [hcell, load, hsub]

end SlotTree

/-! ## Levels -/

theorem le_pow_calcLevelNrFrom {rounds e levelNr : ℕ} (h : e ≤ rounds) :
    levelNr ≤ calcLevelNrFrom rounds e levelNr ∧
      e ≤ 512 ^ (calcLevelNrFrom rounds e levelNr - levelNr + 1) := by
  induction rounds generalizing e levelNr with
  | zero =>
    obtain rfl : e = 0 := by omega
    exact ⟨Nat.le_refl _, Nat.zero_le _⟩
  | succ rounds ih =>
    have hnr : slotIndexNr = 512 := rfl
    rw [calcLevelNrFrom, hnr]
    split_ifs with hlt
    · obtain ⟨hle, hpow⟩ := @ih ((e + 512 - 1) / 512) (levelNr + 1) (by omega)
      refine ⟨by omega, ?_⟩
      obtain ⟨l, hl⟩ : ∃ l, calcLevelNrFrom rounds ((e + 512 - 1) / 512) (levelNr + 1) =
        levelNr + 1 + l := ⟨_, (Nat.add_sub_cancel' hle).symm⟩
      rw [hl, Nat.add_sub_cancel_left] at hpow
      rw [hl, show levelNr + 1 + l - levelNr + 1 = l + 1 + 1 by omega, Nat.pow_succ]
      omega
    · rw [Nat.sub_self]
      exact ⟨Nat.le_refl _, by omega⟩

/-- **The tree has a slot for every index below the expected size.** -/
theorem le_pow_calcLevelNr (e : ℕ) : e ≤ 512 ^ (calcLevelNr e - 1 + 1) :=
  (le_pow_calcLevelNrFrom (Nat.le_refl e)).2

/-- There is at least one level. -/
theorem slotIndexNr_pow_calcLevelNr (e : ℕ) :
    slotIndexNr ^ calcLevelNr e = 512 ^ (calcLevelNr e - 1 + 1) := by
  have hpos : 1 ≤ calcLevelNr e := (le_pow_calcLevelNrFrom (Nat.le_refl e)).1
  rw [Nat.sub_add_cancel hpos]
  rfl

end Concurrent

end CppEtudes
