import CppEtudes.Concurrent.Hash
import Mathlib.Data.Nat.Bitwise

/-!
# The slots that are initialised

A `Put` initialises the slot of its key and what `PARENT_SLOT` gives for
it, which is not the slot with the highest bit cleared. The slots of a
table are therefore those of its `Put`s, with their `PARENT_SLOT`s, and
nothing on the way from such a slot to slot 0 besides.
-/

namespace CppEtudes

namespace Concurrent

/-- **The parent of a slot** in the split order: its highest bit is
cleared. -/
def splitParent (i : ℕ) : ℕ := i - 2 ^ i.log2

/-- `slot_nr` behind `maybe_resize`. -/
def nextSlotNr (loadFactor maxSlotNr size slotNr : ℕ) : ℕ :=
  if loadFactor < size / slotNr ∧ slotNr <<< 1 < maxSlotNr then slotNr <<< 1 else slotNr

/-- **The slots of the keys** that are put, by a table that holds the keys
`seen`. -/
def usedSlots (loadFactor maxSlotNr : ℕ) :
    (seen : List ℕ) → (slotNr : ℕ) → List HashCall → List ℕ
  | _, _, [] => []
  | seen, slotNr, .get _ :: calls => usedSlots loadFactor maxSlotNr seen slotNr calls
  | seen, slotNr, .put key _ :: calls =>
    let slotNr := nextSlotNr loadFactor maxSlotNr seen.length slotNr
    (key &&& (slotNr - 1)) :: usedSlots loadFactor maxSlotNr (seen.insert key) slotNr calls

namespace Hash

/-- **The slots that are there** once the slots `used` have been used. -/
def initialised (used : List ℕ) : List ℕ := 0 :: used.flatMap withParent

/-- The slots that a sequence of calls uses in a new table. -/
def slotsOf (e l : ℕ) (calls : List HashCall) : List ℕ := usedSlots l ((e + l - 1) / l) [] 2 calls

section Slots

variable {used : List ℕ} {i j q : ℕ}

theorem mem_withParent : j ∈ withParent i ↔ j = i ∨ parentSlot i = some j := by
  rw [withParent, List.mem_cons, Option.mem_toList]

theorem mem_initialised :
    j ∈ initialised used ↔ j = 0 ∨ ∃ i ∈ used, j = i ∨ parentSlot i = some j := by
  simp only [initialised, List.mem_cons, List.mem_flatMap, mem_withParent]

theorem mem_initialised_concat :
    j ∈ initialised (used ++ [i]) ↔ j ∈ initialised used ∨ j ∈ withParent i := by
  rw [initialised, initialised, List.flatMap_append, ← List.cons_append, List.mem_append,
    List.flatMap_singleton]

/-- A single bit, or none. -/
theorem and_two_pow_cases (n k : ℕ) : n &&& 2 ^ k = 0 ∨ n &&& 2 ^ k = 2 ^ k := by
  rw [Nat.and_two_pow]
  rcases n.testBit k with - | -
  · exact Or.inl (Nat.zero_mul _)
  · exact Or.inr (Nat.one_mul _)

theorem parentSlot_le (hq : parentSlot i = some q) : q ≤ i := by
  rw [parentSlot, Option.map_eq_some_iff] at hq
  obtain ⟨clz, -, rfl⟩ := hq
  exact Nat.and_le_left

/-- **What `PARENT_SLOT` gives** has slot 0 as its parent in either
sense. -/
theorem parent_of_parentSlot (hi : i < 2 ^ 32) (hq : parentSlot i = some q) :
    splitParent q = 0 ∧ ∀ q', parentSlot q = some q' → q' = 0 := by
  have hi0 : 0 < i := by
    rcases Nat.eq_zero_or_pos i with rfl | hpos
    · exact nomatch hq
    · exact hpos
  obtain ⟨q₁, hq₁, -, -, hlow⟩ := parentSlot_spec hi0 hi
  obtain rfl := Option.some.inj (hq₁.symm.trans hq)
  rw [parentSlot_eq hi0 hi, Option.some.injEq] at hq
  have hbit := and_two_pow_cases i ((i.log2 + 4) % 32)
  rw [hq] at hbit
  rcases hbit with rfl | hbit
  · exact ⟨rfl, nofun⟩
  · refine ⟨?_, fun q' hq' => ?_⟩
    · rw [hbit, splitParent, Nat.log2_two_pow, Nat.sub_self]
    · have hpos : 0 < q₁ := hbit ▸ Nat.two_pow_pos _
      exact (Option.some.inj ((parentSlot_of_lt hpos hlow).symm.trans hq')).symm

/-- The slots that are there have their `PARENT_SLOT` there. -/
theorem withParent_subset_initialised (hused : ∀ i ∈ used, i < 2 ^ 32)
    (hj : j ∈ initialised used) : withParent j ⊆ initialised used := by
  intro k hk
  rcases mem_withParent.1 hk with rfl | hk
  · exact hj
  · rcases mem_initialised.1 hj with rfl | ⟨i, hi, rfl | hij⟩
    · exact nomatch hk
    · exact mem_initialised.2 (Or.inr ⟨j, hi, Or.inr hk⟩)
    · exact mem_initialised.2 (Or.inl ((parent_of_parentSlot (hused i hi) hij).2 k hk))

/-- **Parents are there** exactly if those of the used slots are. -/
theorem splitParent_mem_initialised_iff (hused : ∀ i ∈ used, i < 2 ^ 32) :
    (∀ j ∈ initialised used, splitParent j ∈ initialised used) ↔
      ∀ i ∈ used, splitParent i ∈ initialised used := by
  refine ⟨fun h i hi => h i (mem_initialised.2 (Or.inr ⟨i, hi, Or.inl rfl⟩)), fun h j hj => ?_⟩
  rcases mem_initialised.1 hj with rfl | ⟨i, hi, rfl | hij⟩
  · exact mem_initialised.2 (Or.inl rfl)
  · exact h j hi
  · exact mem_initialised.2 (Or.inl (parent_of_parentSlot (hused i hi) hij).1)

end Slots

/-! ## Calls -/

section Resize

variable {depth : ℕ} {τ : Type} (h : Hash depth τ)

theorem slotNr_maybeResize :
    h.maybeResize.slotNr = nextSlotNr h.loadFactor h.maxSlotNr h.size h.slotNr := by
  rw [maybeResize, nextSlotNr]
  split_ifs
  · rfl
  · rfl

/-- Only `slot_nr` changes. -/
theorem maybeResize_keeps :
    (∀ i, h.maybeResize.slot i = h.slot i) ∧ h.maybeResize.loadFactor = h.loadFactor ∧
      h.maybeResize.maxSlotNr = h.maxSlotNr := by
  rw [maybeResize]
  split_ifs
  · exact ⟨fun _ => rfl, rfl, rfl⟩
  · exact ⟨fun _ => rfl, rfl, rfl⟩

end Resize

theorem keys_call_put (entries : Entries) (key value : ℕ) :
    (entries.call (.put key value)).2.keys = entries.keys.insert key := by
  rw [Entries.call]
  split_ifs with hmem
  · rw [List.insert_of_mem (AList.mem_keys.1 hmem)]
  · rw [AList.keys_insert, List.insert_of_not_mem hmem, List.erase_of_not_mem hmem]

section Calls

variable {depth : ℕ} {τ : Type} {h h' : Hash depth τ} {nodes used : List ℕ} {entries : Entries}
variable {key : ℕ}

/-- **The slots of the table** are those that have been used. -/
structure Uses (h : Hash depth τ) (used : List ℕ) : Prop where
  slots : ∀ j < 512 ^ (depth + 1), (h.slot j).isSome ↔ j ∈ initialised used
  valid : ∀ i ∈ used, Valid depth i

theorem Uses.lt (hu : Uses h used) (i : ℕ) (hi : i ∈ used) : i < 2 ^ 32 :=
  (hu.valid i hi).2.trans (by decide)

theorem Uses.lt_of_initialised (hu : Uses h used) {j : ℕ} (hj : j ∈ initialised used) :
    j < 512 ^ (depth + 1) := by
  rcases mem_initialised.1 hj with rfl | ⟨i, hi, rfl | hij⟩
  · exact valid_zero.1
  · exact (hu.valid j hi).1
  · exact ((parentSlot_le hij).trans_lt (hu.valid i hi).1)

/-- **A `Put` uses its slot.** -/
theorem Uses.put (hu : Uses h used) (hinv : Inv h nodes entries)
    (hmakes : Makes (h.maybeResize.missing (h.maybeResize.getSlotIdx key)) h.maybeResize h') :
    Uses h' (used ++ [h.maybeResize.getSlotIdx key]) := by
  have hvalid := hinv.maybeResize.valid_getSlotIdx key
  refine ⟨fun j hj => ?_, fun i hi => ?_⟩
  · rw [hmakes.slots j hj, (maybeResize_keeps h).1, hu.slots j hj, mem_initialised_concat, missing,
      (maybeResize_keeps h).1]
    split_ifs with hthere
    · -- a slot that is there has its parent there
      have hmem := (hu.slots _ hvalid.1).1 hthere
      rw [or_iff_right List.not_mem_nil]
      exact (or_iff_left_of_imp fun hj' => withParent_subset_initialised hu.lt hmem hj').symm
    · exact or_comm
  · rcases List.mem_append.1 hi with hi | hi
    · exact hu.valid i hi
    · exact List.mem_singleton.1 hi ▸ hvalid

variable [DecidableEq τ] [Zero τ] [One τ] [Add τ]

/-- **A sequence of calls** uses the slots of the keys it puts. -/
theorem Uses.run {calls : List HashCall} (hu : Uses h used) (hinv : Inv h nodes entries)
    (hcalls : ∀ c ∈ calls, c.key ≤ hashSizeLimit) :
    ∃ h', Returns (fun fuel => Hash.run fuel calls h) ((Entries.run calls entries).1, h') ∧
      Uses h' (used ++ usedSlots h.loadFactor h.maxSlotNr entries.keys h.slotNr calls) := by
  induction calls generalizing h nodes entries used with
  | nil =>
    rw [usedSlots, List.append_nil]
    exact ⟨h, Returns.const _, hu⟩
  | cons c calls ih =>
    have hrest (d : HashCall) (hd : d ∈ calls) := hcalls d (List.mem_cons_of_mem c hd)
    rcases c with ⟨key, value⟩ | key
    · obtain ⟨h₁, nodes₁, hret₁, hinv₁, hmakes⟩ := hinv.call_put (hcalls _ List.mem_cons_self) value
      obtain ⟨h₂, hret₂, hu₂⟩ := ih (hu.put hinv hmakes) hinv₁ hrest
      refine ⟨h₂, Returns.bind hret₁ (Returns.bind hret₂ (Returns.const _)), ?_⟩
      rw [keys_call_put, hmakes.slotNr, hmakes.loadFactor, hmakes.maxSlotNr,
        (maybeResize_keeps h).2.1, (maybeResize_keeps h).2.2, List.append_assoc, getSlotIdx,
        slotNr_maybeResize, hinv.size] at hu₂
      exact hu₂
    · obtain ⟨h₂, hret₂, hu₂⟩ := ih hu hinv hrest
      have hk : key ≤ hashSizeLimit := hcalls (.get key) List.mem_cons_self
      have hret₁ := hinv.call_get hk
      exact ⟨h₂, Returns.bind hret₁ (Returns.bind hret₂ (Returns.const _)), hu₂⟩

/-- A new table, and calls. -/
theorem returns_uses {e l : ℕ} (he : 0 < e) (he' : e < hashSizeLimit) (hl : 0 < l) (hle : l ≤ e)
    (calls : List HashCall) (hcalls : ∀ c ∈ calls, c.key ≤ hashSizeLimit) :
    ∃ h : Hash (calcLevelNr e - 1) τ,
      Returns (fun fuel => (Hash.new e l fuel).bind (Hash.run fuel calls))
        ((Entries.run calls ∅).1, h) ∧ Uses h (slotsOf e l calls) := by
  obtain ⟨h₀, nodes₀, hnew, hinv₀, hmakes⟩ := inv_new (τ := τ) he he' hl hle
  have hu : Uses h₀ [] := by
    refine ⟨fun j hj => ?_, fun i hi => absurd hi List.not_mem_nil⟩
    rw [hmakes.slots j hj, slot_blank, Option.isSome_none, or_iff_left Bool.false_ne_true]
    rfl
  obtain ⟨h, hret, hu'⟩ := hu.run hinv₀ hcalls
  rw [hmakes.loadFactor, hmakes.maxSlotNr, hmakes.slotNr] at hu'
  exact ⟨h, Returns.bind hnew hret, hu'⟩

/-- **The parents of the slots.** After any calls on a table of any
admitted size and load factor, every slot that has its dummy node has its
parent in the split order initialised too, if and only if that is so of the
slots of the keys that were put: `PARENT_SLOT` does not see to it. -/
theorem parents_initialised_iff {e l : ℕ} (he : 0 < e) (he' : e < hashSizeLimit) (hl : 0 < l)
    (hle : l ≤ e) (calls : List HashCall) (hcalls : ∀ c ∈ calls, c.key ≤ hashSizeLimit) :
    ∃ (h : Hash (calcLevelNr e - 1) τ) (answers : List Answer),
      Returns (fun fuel => (Hash.new e l fuel).bind (Hash.run fuel calls)) (answers, h) ∧
      ((∀ i, 0 < i → i < slotIndexNr ^ calcLevelNr e → (h.slot i).isSome →
          (h.slot (splitParent i)).isSome) ↔
        ∀ i ∈ slotsOf e l calls, splitParent i ∈ initialised (slotsOf e l calls)) := by
  obtain ⟨h, hret, hu⟩ := returns_uses (τ := τ) he he' hl hle calls hcalls
  refine ⟨h, _, hret, ?_⟩
  rw [slotIndexNr_pow_calcLevelNr, ← splitParent_mem_initialised_iff hu.lt]
  have hparent {i : ℕ} (hi : i < 512 ^ (calcLevelNr e - 1 + 1)) :
      (h.slot (splitParent i)).isSome ↔ splitParent i ∈ initialised (slotsOf e l calls) :=
    hu.slots _ ((Nat.sub_le _ _).trans_lt hi)
  constructor
  · intro hall j hj
    rcases Nat.eq_zero_or_pos j with rfl | hj0
    · exact mem_initialised.2 (Or.inl rfl)
    · have hlt := hu.lt_of_initialised hj
      exact (hparent hlt).1 (hall j hj0 hlt ((hu.slots j hlt).2 hj))
  · intro hall i _ hi hsome
    exact (hparent hi).2 (hall i ((hu.slots i hi).1 hsome))

/-- The slots 0, 1, 2 and 3, in the order of their parents. -/
theorem parents_initialised_iff_inOrder : ∃ (h : Hash (calcLevelNr 10 - 1) ℕ)
    (answers : List Answer), Returns (fun fuel => (Hash.new 10 1 fuel).bind (Hash.run fuel
      [.put 0 0, .put 1 0, .put 4 0, .put 5 0, .put 2 0, .put 3 0])) (answers, h) ∧
    ∀ i, 0 < i → i < slotIndexNr ^ calcLevelNr 10 → (h.slot i).isSome →
      (h.slot (splitParent i)).isSome := by
  obtain ⟨h, answers, hret, hiff⟩ := parents_initialised_iff (τ := ℕ) (e := 10) (l := 1)
    (by decide) (by decide) (by decide) (by decide)
    [.put 0 0, .put 1 0, .put 4 0, .put 5 0, .put 2 0, .put 3 0] (by decide)
  exact ⟨h, answers, hret, hiff.2 (by decide)⟩

/-- **Slot 3 without slot 1**: the keys of slot 0 double the slots, and the
next key is the first one with an odd slot. -/
theorem slot_three_without_parent : ∃ (h : Hash (calcLevelNr 10 - 1) ℕ) (answers : List Answer),
    Returns (fun fuel => (Hash.new 10 1 fuel).bind (Hash.run fuel
      [.put 0 0, .put 2 0, .put 4 0, .put 6 0, .put 3 0])) (answers, h) ∧
    (h.slot 3).isSome ∧ splitParent 3 = 1 ∧ ¬ (h.slot (splitParent 3)).isSome := by
  obtain ⟨h, hret, hu⟩ := returns_uses (τ := ℕ) (e := 10) (l := 1) (by decide) (by decide)
    (by decide) (by decide) [.put 0 0, .put 2 0, .put 4 0, .put 6 0, .put 3 0] (by decide)
  refine ⟨h, _, hret, (hu.slots 3 (by decide)).2 (by decide), by decide, fun hsome => ?_⟩
  exact absurd ((hu.slots (splitParent 3) (by decide)).1 hsome) (by decide)

end Calls

end Hash

end Concurrent

end CppEtudes
