import CppEtudes.Concurrent.Sequential
import CppEtudes.Concurrent.SplitOrder
import Mathlib.Data.List.AList
import Mathlib.Data.Finset.Card

/-!
# The hash table as a map

A single thread sees an insert-if-absent map, however often the slots are
doubled. The place a call starts from is the dummy node of a slot whose
bits are bits of the key: that of the key's own slot or, through
`PARENT_SLOT`, of another one. It therefore lies before the key in the
list, and a sorted list finds a key from any place before it.
-/

namespace CppEtudes

namespace Concurrent

/-! ## The map -/

/-- The key a call puts. -/
def HashCall.putKey? : HashCall → Option ℕ
  | .put key _ => some key
  | .get _ => none

/-- The value of the first `Put` of a key. -/
def firstPut (calls : List HashCall) (k : ℕ) : Option ℕ :=
  calls.findSome? fun
    | .put key value => if key = k then some value else none
    | .get _ => none

/-- What a call is to answer after the calls `before`. -/
def answer (before : List HashCall) : HashCall → Answer
  | .put key _ => .put (firstPut before key).isNone
  | .get key => .get (firstPut before key)

/-- What a sequence of calls is to answer. -/
def expected (before : List HashCall) : List HashCall → List Answer
  | [] => []
  | c :: calls => answer before c :: expected (before ++ [c]) calls

theorem firstPut_append (calls calls' : List HashCall) (k : ℕ) :
    firstPut (calls ++ calls') k = (firstPut calls k).or (firstPut calls' k) :=
  List.findSome?_append

theorem firstPut_isSome {calls : List HashCall} {k : ℕ} :
    (firstPut calls k).isSome ↔ k ∈ calls.filterMap HashCall.putKey? := by
  rw [firstPut, List.findSome?_isSome_iff, List.mem_filterMap]
  refine exists_congr fun c => and_congr_right fun _ => ?_
  rcases c with ⟨key, value⟩ | key
  · simp [HashCall.putKey?, Option.isSome_ite]
  · simp [HashCall.putKey?]

/-- The keys that have been put, each with its first value. -/
abbrev Entries := AList fun _ : ℕ => ℕ

namespace Entries

/-- One call on the map. -/
def call (entries : Entries) : HashCall → Answer × Entries
  | .put key value =>
    if key ∈ entries then (.put false, entries) else (.put true, entries.insert key value)
  | .get key => (.get (entries.lookup key), entries)

def run : List HashCall → Entries → List Answer × Entries
  | [], entries => ([], entries)
  | c :: calls, entries =>
    let (answer, entries) := entries.call c
    let (answers, entries) := run calls entries
    (answer :: answers, entries)

variable {entries : Entries} {before calls : List HashCall} {k : ℕ}

/-- A call adds what it puts, behind what was put before. -/
theorem lookup_call (c : HashCall) :
    (entries.call c).2.lookup k = (entries.lookup k).or (firstPut [c] k) := by
  rcases c with ⟨key, value⟩ | key
  · have hput : firstPut [.put key value] k = if key = k then some value else none := by
      simp [firstPut]
    rw [hput, call]
    split_ifs with hmem hkey hkey
    · obtain ⟨v, hv⟩ := Option.isSome_iff_exists.1 (AList.lookup_isSome.2 hmem)
      rw [← hkey, hv, Option.some_or]
    · rw [Option.or_none]
    · rw [← hkey, AList.lookup_insert, AList.lookup_eq_none.2 hmem, Option.none_or]
    · rw [AList.lookup_insert_ne (Ne.symm hkey), Option.or_none]
  · simp [call, firstPut]

/-- **The map and the calls it has seen.** -/
theorem run_eq (h : ∀ k, entries.lookup k = firstPut before k) :
    (run calls entries).1 = expected before calls ∧
      ∀ k, (run calls entries).2.lookup k = firstPut (before ++ calls) k := by
  induction calls generalizing entries before with
  | nil => exact ⟨rfl, fun k => by rw [List.append_nil]; exact h k⟩
  | cons c calls ih =>
    have hc (k : ℕ) : (entries.call c).2.lookup k = firstPut (before ++ [c]) k := by
      rw [lookup_call, h, firstPut_append]
    have hanswer : (entries.call c).1 = answer before c := by
      rcases c with ⟨key, value⟩ | key
      · rw [call, answer, ← h key]
        split_ifs with hmem
        · rw [Option.isNone_eq_false_iff.2 (AList.lookup_isSome.2 hmem)]
        · rw [AList.lookup_eq_none.2 hmem, Option.isNone_none]
      · rw [call, answer, h key]
    obtain ⟨hrun, hlookup⟩ := ih hc
    rw [List.append_assoc] at hlookup
    exact ⟨congrArg₂ _ hanswer hrun, hlookup⟩

/-- As many entries as distinct keys have been put. -/
theorem length_keys (h : ∀ k, entries.lookup k = firstPut calls k) :
    entries.keys.length = (calls.filterMap HashCall.putKey?).dedup.length := by
  refine ((List.perm_ext_iff_of_nodup entries.keys_nodup (List.nodup_dedup _)).2 fun k => ?_).length_eq
  rw [List.mem_dedup, ← firstPut_isSome, ← h k, AList.lookup_isSome, AList.mem_keys]

end Entries

/-- The list holds the entries under their regular keys. -/
structure Holds {τ : Type} (m : Memory τ) (nodes : List ℕ) (entries : Entries) : Prop where
  lookup : ∀ k < 2 ^ 31, ∀ v, entries.lookup k = some v ↔
    ∃ a ∈ nodes, m.key a = regularKey k ∧ m.value a = v
  bounded : ∀ k ∈ entries.keys, k < 2 ^ 31

namespace Holds

variable {τ : Type} {m m' : Memory τ} {nodes nodes' : List ℕ} {entries : Entries} {n k v : ℕ}

theorem key_ne_of_not_mem (h : Holds m nodes entries) (hk : k < 2 ^ 31) (hmem : k ∉ entries)
    (a : ℕ) (ha : a ∈ nodes) : m.key a ≠ regularKey k := by
  intro hkey
  have hlookup := (h.lookup k hk (m.value a)).2 ⟨a, ha, hkey, rfl⟩
  rw [AList.lookup_eq_none.2 hmem] at hlookup
  exact nomatch hlookup

theorem congr (h : Holds m nodes entries)
    (hsame : ∀ a ∈ nodes, m'.key a = m.key a ∧ m'.value a = m.value a) :
    Holds m' nodes entries := by
  refine ⟨fun k hk v => (h.lookup k hk v).trans ?_, h.bounded⟩
  refine exists_congr fun a => and_congr_right fun ha => ?_
  rw [(hsame a ha).1, (hsame a ha).2]

/-- There are at most `2 ^ 31` keys. -/
theorem length_le (h : Holds m nodes entries) : entries.keys.length ≤ 2 ^ 31 := by
  have hsub : entries.keys.toFinset ⊆ Finset.range (2 ^ 31) := fun k hk =>
    Finset.mem_range.2 (h.bounded k (List.mem_toFinset.1 hk))
  have hcard := Finset.card_le_card hsub
  rwa [Finset.card_range, List.toFinset_card_of_nodup entries.keys_nodup] at hcard

theorem added_dummy (h : Holds m nodes entries) {s : ℕ} (hs : s < 2 ^ 31)
    (hadd : Added m m' nodes nodes' n (dummyKey s) v) : Holds m' nodes' entries :=
  ⟨fun k hk w => (h.lookup k hk w).trans (hadd.exists_iff (dummyKey_ne_regularKey hs k)),
    h.bounded⟩

theorem added_regular (h : Holds m nodes entries) (hk : k < 2 ^ 31) (hmem : k ∉ entries)
    (hadd : Added m m' nodes nodes' n (regularKey k) v) :
    Holds m' nodes' (entries.insert k v) := by
  refine ⟨fun k' hk' w => ?_, fun k' hk' => ?_⟩
  · rcases eq_or_ne k' k with rfl | hne
    · rw [AList.lookup_insert, Option.some.injEq]
      constructor
      · rintro rfl
        exact ⟨n, (hadd.mem n).2 (Or.inr rfl), hadd.key_self, hadd.value_self⟩
      · rintro ⟨a, ha, hkey, hvalue⟩
        rcases (hadd.mem a).1 ha with ha | rfl
        · exact absurd ((hadd.key a ha).symm.trans hkey) (h.key_ne_of_not_mem hk hmem a ha)
        · exact hadd.value_self.symm.trans hvalue
    · rw [AList.lookup_insert_ne hne, h.lookup k' hk' w]
      exact hadd.exists_iff fun hkey => hne (regularKey_inj hk hk' hkey).symm
  · rw [AList.keys_insert, List.mem_cons] at hk'
    rcases hk' with rfl | hk'
    · exact hk
    · exact h.bounded k' (List.mem_of_mem_erase hk')

end Holds

namespace Hash

variable {depth : ℕ} {τ : Type}

/-- What the entry of a slot holds. -/
def slot (h : Hash depth τ) (slotI : ℕ) : Option ℕ := SlotTree.load depth h.head (cellOf depth slotI)

/-- The slots that the tree has an entry for. -/
def Valid (depth slotI : ℕ) : Prop := slotI < 512 ^ (depth + 1) ∧ slotI < 2 ^ 31

/-- **The table holds the entries**: the list does, and each slot that is
there points to its dummy node. -/
structure Inv (h : Hash depth τ) (nodes : List ℕ) (entries : Entries) : Prop where
  listed : Listed h.list nodes
  holds : Holds h.list nodes entries
  slots : ∀ i, Valid depth i → ∀ a, h.slot i = some a → a ∈ nodes ∧ h.list.key a = dummyKey i
  zero : (h.slot 0).isSome
  size : h.size = entries.keys.length
  slotNr_pos : 0 < h.slotNr
  slotNr_le : h.slotNr ≤ 512 ^ (depth + 1) ∧ h.slotNr ≤ 2 ^ 31
  maxSlotNr_le : h.maxSlotNr ≤ 512 ^ (depth + 1) ∧ h.maxSlotNr ≤ 2 ^ 31

/-- The table with the entry of a slot created. -/
def created (h : Hash depth τ) (i : ℕ) : Hash depth τ :=
  { h with head := (SlotTree.getSlot i true depth h.head).2 }

/-- The table with a slot that points to the node `a`. -/
def filled (h : Hash depth τ) (i a : ℕ) : Hash depth τ :=
  { h with head := SlotTree.store (some a) depth (h.created i).head (cellOf depth i) }

/-- A slot and its `PARENT_SLOT`. -/
def withParent (i : ℕ) : List ℕ := i :: (parentSlot i).toList

/-- The slots that `ensure_slot_exists` makes. -/
def missing (h : Hash depth τ) (i : ℕ) : List ℕ :=
  if (h.slot i).isSome then [] else withParent i

/-- **The slots `made` are made**, and the table keeps its numbers. -/
structure Makes (made : List ℕ) (h h' : Hash depth τ) : Prop where
  slots : ∀ j < 512 ^ (depth + 1), (h'.slot j).isSome ↔ j ∈ made ∨ (h.slot j).isSome
  slotNr : h'.slotNr = h.slotNr
  loadFactor : h'.loadFactor = h.loadFactor
  maxSlotNr : h'.maxSlotNr = h.maxSlotNr

section Slots

variable {h : Hash depth τ} {m' : Memory τ} {nodes nodes' : List ℕ} {entries : Entries} {i j a : ℕ}

theorem getOrCreateSlot_eq (h : Hash depth τ) (i : ℕ) :
    h.getOrCreateSlot i = some (cellOf depth i, h.created i) := by
  unfold getOrCreateSlot
  have hcell := SlotTree.getSlot_create i depth h.head
  rcases hget : SlotTree.getSlot i true depth h.head with ⟨c, t⟩
  rw [hget] at hcell
  obtain rfl : c = some (cellOf depth i) := hcell
  simp only [created, hget]

theorem slot_created : (h.created i).slot j = h.slot j := SlotTree.load_getSlot_create ..

theorem load_cellOf : SlotTree.load depth h.head (cellOf depth i) = h.slot i := rfl

theorem slot_filled_self : (h.filled i a).slot i = some a := SlotTree.load_store_create_self ..

theorem slot_filled_of_ne (hi : i < 512 ^ (depth + 1)) (hj : j < 512 ^ (depth + 1)) (hne : j ≠ i) :
    (h.filled i a).slot j = h.slot j := by
  have hcell : cellOf depth j ≠ cellOf depth i := fun hc => hne (cellOf_inj hj hi hc)
  exact (SlotTree.load_store_of_ne _ hcell _).trans slot_created

theorem makes_created (h : Hash depth τ) (i : ℕ) : Makes [] h (h.created i) := by
  refine ⟨fun j _ => ?_, rfl, rfl, rfl⟩
  rw [slot_created, or_iff_right List.not_mem_nil]

theorem makes_filled (hi : i < 512 ^ (depth + 1)) (m' : Memory τ) (a : ℕ) :
    Makes [i] h (Hash.filled { h with list := m' } i a) := by
  refine ⟨fun j hj => ?_, rfl, rfl, rfl⟩
  rw [List.mem_singleton]
  rcases eq_or_ne j i with rfl | hne
  · exact iff_of_true (Option.isSome_of_mem slot_filled_self) (Or.inl rfl)
  · rw [slot_filled_of_ne hi hj hne, or_iff_right hne]
    rfl

theorem Makes.refl (h : Hash depth τ) : Makes [] h h :=
  ⟨fun _ _ => (or_iff_right List.not_mem_nil).symm, rfl, rfl, rfl⟩

theorem Makes.trans {h₁ h₂ : Hash depth τ} {made made' : List ℕ} (hm : Makes made h h₁)
    (hm' : Makes made' h₁ h₂) : Makes (made ++ made') h h₂ := by
  refine ⟨fun j hj => ?_, hm'.slotNr.trans hm.slotNr, hm'.loadFactor.trans hm.loadFactor,
    hm'.maxSlotNr.trans hm.maxSlotNr⟩
  rw [hm'.slots j hj, hm.slots j hj, List.mem_append, or_left_comm, or_assoc]

theorem Valid.of_and (hi : Valid depth i) (hj : j &&& i = j) : Valid depth j := by
  have hle : j ≤ i := hj ▸ Nat.and_le_right
  exact ⟨hle.trans_lt hi.1, hle.trans_lt hi.2⟩

theorem Inv.valid_getSlotIdx (hinv : Inv h nodes entries) (key : ℕ) :
    Valid depth (h.getSlotIdx key) := by
  have hlt : h.getSlotIdx key < h.slotNr :=
    Nat.and_le_right.trans_lt (Nat.sub_lt hinv.slotNr_pos Nat.one_pos)
  exact ⟨hlt.trans_le hinv.slotNr_le.1, hlt.trans_le hinv.slotNr_le.2⟩

theorem valid_zero : Valid depth 0 := ⟨Nat.pow_pos (by decide), by decide⟩

theorem Inv.created (hinv : Inv h nodes entries) (i : ℕ) : Inv (h.created i) nodes entries :=
  { hinv with
    slots := fun j hj a ha => hinv.slots j hj a (slot_created.symm.trans ha)
    zero := slot_created.symm ▸ hinv.zero }

/-- A slot gets its node in a list that has grown. -/
theorem Inv.filled (hinv : Inv h nodes entries) (hi : Valid depth i) (hl : Listed m' nodes')
    (hh : Holds m' nodes' entries)
    (hsub : ∀ b ∈ nodes, b ∈ nodes' ∧ m'.key b = h.list.key b)
    (ha : a ∈ nodes') (hkey : m'.key a = dummyKey i) :
    Inv (Hash.filled { h with list := m' } i a) nodes' entries := by
  refine { hinv with listed := hl, holds := hh, slots := fun j hj b hb => ?_, zero := ?_ }
  · rcases eq_or_ne j i with rfl | hne
    · obtain rfl := Option.some.inj (slot_filled_self.symm.trans hb)
      exact ⟨ha, hkey⟩
    · obtain ⟨hb', hbkey⟩ := hinv.slots j hj b ((slot_filled_of_ne hi.1 hj.1 hne).symm.trans hb)
      exact ⟨(hsub b hb').1, (hsub b hb').2.trans hbkey⟩
  · rcases eq_or_ne 0 i with rfl | hne
    · exact Option.isSome_iff_exists.2 ⟨a, slot_filled_self⟩
    · rw [slot_filled_of_ne hi.1 valid_zero.1 hne]
      exact hinv.zero

/-- **The loop over the parents** finds room for the slots it meets: the
slot itself and at most one parent. -/
theorem Inv.missingSlots (hinv : Inv h nodes entries) (hi : Valid depth i) (hi0 : 0 < i) :
    ∃ q missing j h', parentSlot i = some q ∧
      h.missingSlots 3 q [i] (cellOf depth i) = some (missing, cellOf depth j, h') ∧
      Inv h' nodes entries ∧ (∀ l ∈ missing, Valid depth l) ∧ Makes [] h h' ∧
      (∀ l, l ∈ missing ∨ (h.slot l).isSome ↔ l ∈ [i, q] ∨ (h.slot l).isSome) ∧
      j ∈ [i, q] ∧ j &&& i = j := by
  obtain ⟨q, hq, hand, -, hlt⟩ := parentSlot_spec hi0 (hi.2.trans (by decide))
  have hvq : Valid depth q := hi.of_and hand
  -- a slot that is there need not be made
  have hthere (hsome : (h.slot q).isSome) (l : ℕ) :
      l ∈ [i] ∨ (h.slot l).isSome ↔ l ∈ [i, q] ∨ (h.slot l).isSome := by
    rw [List.mem_singleton, List.mem_pair, or_assoc]
    refine or_congr_right (or_iff_right_of_imp ?_).symm
    rintro rfl
    exact hsome
  rcases Nat.eq_zero_or_pos q with rfl | hq0
  · refine ⟨0, [i], i, h, hq, ?_, hinv, ?_, .refl h, hthere hinv.zero, List.mem_cons_self,
      Nat.and_self i⟩
    · rw [Hash.missingSlots, if_pos rfl]
    · exact fun l hl => List.mem_singleton.1 hl ▸ hi
  · have hslot : SlotTree.load depth (h.created q).head (cellOf depth q) = h.slot q := slot_created
    have hmem : q ∈ [i, q] := List.mem_cons_of_mem i List.mem_cons_self
    rcases hfree : h.slot q with - | a
    · refine ⟨q, [q, i], q, h.created q, hq, ?_, hinv.created q, ?_, makes_created h q,
        fun l => ?_, hmem, hand⟩
      · rw [Hash.missingSlots, if_neg hq0.ne', getOrCreateSlot_eq]
        simp only [Option.bind_eq_bind, Option.bind_some, hslot, hfree, Option.isSome_none,
          Bool.false_eq_true, if_false, parentSlot_of_lt hq0 hlt]
        rw [Hash.missingSlots, if_pos rfl]
      · intro l hl
        rcases List.mem_cons.1 hl with rfl | hl
        · exact hvq
        · exact List.mem_singleton.1 hl ▸ hi
      · rw [List.mem_pair, List.mem_pair, or_comm (a := l = q)]
    · refine ⟨q, [i], q, h.created q, hq, ?_, hinv.created q, ?_, makes_created h q,
        hthere (hfree ▸ rfl), hmem, hand⟩
      · rw [Hash.missingSlots, if_neg hq0.ne', getOrCreateSlot_eq]
        simp only [Option.bind_eq_bind, Option.bind_some, hslot, hfree, Option.isSome_some, if_true]
        rfl
      · exact fun l hl => List.mem_singleton.1 hl ▸ hi

end Slots

/-! ## Slots that are made -/

section Ensure

variable [DecidableEq τ] [Zero τ] [One τ] [Add τ] {h : Hash depth τ} {nodes : List ℕ}
  {entries : Entries} {i j : ℕ}

theorem returns_initSlot {m' : Memory τ} {r : Result} {a : ℕ}
    (hret : Returns (h.list.insert none (dummyKey i) 0) (m', r))
    (ha : (if r.ok then some h.list.fresh else r.node) = some a) :
    Returns (fun fuel => initSlot fuel h i) (Hash.filled { h with list := m' } i a) := by
  refine Returns.bind hret ?_
  dsimp only
  simp only [ha, getOrCreateSlot_eq, Option.bind_eq_bind, Option.bind_some]
  exact Returns.const _

/-- **A missing slot is made**: its dummy node is linked in, or found. -/
theorem Inv.initSlot (hinv : Inv h nodes entries) (hi : Valid depth i) :
    ∃ h' nodes', Returns (fun fuel => initSlot fuel h i) h' ∧ Inv h' nodes' entries ∧
      Makes [i] h h' := by
  rcases Classical.em (∃ a ∈ nodes, h.list.key a = dummyKey i) with ⟨a, ha, hkey⟩ | hnone
  · have hret := hinv.listed.returns_insert_of_mem (Or.inl rfl) ha hkey 0
    refine ⟨_, nodes, returns_initSlot hret rfl, ?_, makes_filled hi.1 _ a⟩
    refine hinv.filled hi (hinv.listed.newNode 0) ?_ (fun b hb => ⟨hb, ?_⟩) ha ?_
    · exact hinv.holds.congr fun b hb =>
        ⟨hinv.listed.key_newNode hb, hinv.listed.value_newNode hb⟩
    · exact hinv.listed.key_newNode hb
    · exact (hinv.listed.key_newNode ha).trans hkey
  · obtain ⟨m', nodes', hret, hadd⟩ := hinv.listed.returns_insert (Or.inl rfl)
      (fun a ha hkey => hnone ⟨a, ha, hkey⟩) 0
    refine ⟨_, nodes', returns_initSlot hret rfl, ?_, makes_filled hi.1 m' _⟩
    exact hinv.filled hi hadd.listed (hinv.holds.added_dummy hi.2 hadd)
      (fun b hb => ⟨(hadd.mem b).2 (Or.inl hb), hadd.key b hb⟩) ((hadd.mem _).2 (Or.inr rfl))
      hadd.key_self

theorem Inv.initSlots (hinv : Inv h nodes entries) {missing : List ℕ}
    (hmissing : ∀ i ∈ missing, Valid depth i) :
    ∃ h' nodes', Returns (fun fuel => missing.foldlM (Hash.initSlot fuel) h) h' ∧
      Inv h' nodes' entries ∧ Makes missing h h' := by
  induction missing generalizing h nodes with
  | nil => exact ⟨h, nodes, Returns.const h, hinv, .refl h⟩
  | cons i missing ih =>
    obtain ⟨h₁, nodes₁, hret₁, hinv₁, hmakes₁⟩ := hinv.initSlot (hmissing i List.mem_cons_self)
    have hmissing' (j : ℕ) (hj : j ∈ missing) : Valid depth j :=
      hmissing j (List.mem_cons_of_mem _ hj)
    obtain ⟨h₂, nodes₂, hret₂, hinv₂, hmakes₂⟩ := ih hinv₁ hmissing'
    exact ⟨h₂, nodes₂, Returns.bind hret₁ hret₂, hinv₂, hmakes₁.trans hmakes₂⟩

/-- **`ensure_slot_exists`** gives a node of the list: the dummy node of a
slot whose bits are bits of the one asked for. It makes the slot and its
parent, unless the slot is there. -/
theorem Inv.ensureSlotExists (hinv : Inv h nodes entries) (hi : Valid depth i) :
    ∃ h' nodes' a j, Returns (h.ensureSlotExists i) (some a, h') ∧ Inv h' nodes' entries ∧
      a ∈ nodes' ∧ h'.list.key a = dummyKey j ∧ j &&& i = j ∧
      Makes (h.missing i) h h' := by
  have hslot : SlotTree.load depth (h.created i).head (cellOf depth i) = h.slot i := slot_created
  rw [Hash.missing]
  rcases hfree : h.slot i with - | a
  · have hi0 : 0 < i := by
      rcases Nat.eq_zero_or_pos i with rfl | hpos
      · exact absurd hinv.zero (by rw [hfree]; decide)
      · exact hpos
    obtain ⟨q, missing, j, h₁, hq, hmissing, hinv₁, hvalid, hkept, hmade, hj, hand⟩ :=
      (hinv.created i).missingSlots hi hi0
    obtain ⟨h₂, nodes₂, hret, hinv₂, hmakes⟩ := hinv₁.initSlots hvalid
    have hmakes' : Makes (withParent i) h h₂ := by
      have hall := ((makes_created h i).trans hkept).trans hmakes
      refine { hall with slots := fun l hl => ?_ }
      have hmade' := hmade l
      rw [slot_created] at hmade'
      rw [withParent, hq]
      exact (hall.slots l hl).trans hmade'
    have hsome : (h₂.slot j).isSome := by
      refine (hmakes'.slots j (hi.of_and hand).1).2 (Or.inl ?_)
      rw [withParent, hq]
      exact hj
    obtain ⟨a, ha⟩ := Option.isSome_iff_exists.1 hsome
    obtain ⟨hmem, hkey⟩ := hinv₂.slots j (hi.of_and hand) a ha
    refine ⟨h₂, nodes₂, a, j, ?_, hinv₂, hmem, hkey, hand, hmakes'⟩
    unfold Hash.ensureSlotExists
    simp only [getOrCreateSlot_eq, Option.bind_eq_bind, Option.bind_some, hslot, hfree,
      Option.isSome_none, Bool.false_eq_true, if_false, hq, hmissing]
    refine Returns.bind hret ?_
    rw [load_cellOf, ha]
    exact Returns.const _
  · obtain ⟨hmem, hkey⟩ := hinv.slots i hi a hfree
    refine ⟨h.created i, nodes, a, i, ?_, hinv.created i, hmem, hkey, Nat.and_self i,
      makes_created h i⟩
    unfold Hash.ensureSlotExists
    simp only [getOrCreateSlot_eq, Option.bind_eq_bind, Option.bind_some, hslot, hfree,
      Option.isSome_some, if_true]
    exact Returns.const _

end Ensure

/-! ## Calls -/

section Starts

variable {h : Hash depth τ} {m : Memory τ} {nodes : List ℕ} {entries : Entries} {i key : ℕ}

theorem lt_of_le_limit (hk : key ≤ hashSizeLimit) : key < 2 ^ 31 :=
  Nat.lt_of_le_of_lt hk (by decide)

/-- The dummy node of a slot with bits of the key is a place to start
from. -/
theorem starts_of_slot {a : ℕ} (hk : key ≤ hashSizeLimit) (ha : a ∈ nodes)
    (hkey : m.key a = dummyKey i) (hi : i &&& key = i) :
    Starts m nodes (regularKey key) (some a) := by
  refine Or.inr ⟨a, ha, rfl, ?_⟩
  rw [hkey]
  exact dummyKey_lt_regularKey hi (lt_of_le_limit hk)

theorem and_key_of_and_getSlotIdx (hi : i &&& h.getSlotIdx key = i) : i &&& key = i := by
  rw [getSlotIdx] at hi
  calc i &&& key = i &&& (key &&& (h.slotNr - 1)) &&& key := by rw [hi]
    _ = i &&& (key &&& (h.slotNr - 1)) := by
      rw [Nat.and_assoc, Nat.and_comm (key &&& (h.slotNr - 1)), ← Nat.and_assoc key, Nat.and_self]
    _ = i := hi

theorem Inv.maybeResize (hinv : Inv h nodes entries) : Inv h.maybeResize nodes entries := by
  unfold Hash.maybeResize
  split_ifs with hgrow
  · refine { hinv with slotNr_pos := ?_, slotNr_le := ?_ }
    · have hpos := hinv.slotNr_pos
      simp only [Nat.shiftLeft_eq]
      omega
    · exact ⟨hgrow.2.le.trans hinv.maxSlotNr_le.1, hgrow.2.le.trans hinv.maxSlotNr_le.2⟩
  · exact hinv

/-- What the constructor starts from. -/
def blank (τ : Type) [Zero τ] (e l : ℕ) : Hash (calcLevelNr e - 1) τ :=
  { head := SlotTree.new _, list := .new, size := 0, slotNr := 2, loadFactor := l
    maxSlotNr := (e + l - 1) / l }

theorem slot_blank (τ : Type) [Zero τ] (e l i : ℕ) : (blank τ e l).slot i = none := SlotTree.load_new ..

end Starts

section Calls

variable [DecidableEq τ] [Zero τ] [One τ] [Add τ] {h : Hash depth τ} {nodes : List ℕ}
  {entries : Entries} {i key : ℕ}

/-- What `Put` returns once its slot is there. -/
theorem returns_put {h₁ : Hash depth τ} {m' : Memory τ} {r : Result} {a value : ℕ}
    (hk : key ≤ hashSizeLimit)
    (hslot : Returns (h.maybeResize.ensureSlotExists (h.maybeResize.getSlotIdx key)) (some a, h₁))
    (hins : Returns (h₁.list.insert (some a) (regularKey key) value) (m', r)) :
    Returns (h.put key value)
      (r.ok, if r.ok then { h₁ with list := m', size := (h₁.size + 1) % 2 ^ 32 }
        else { h₁ with list := m' }) := by
  unfold Hash.put
  simp only [if_neg (Nat.not_lt.2 hk)]
  refine Returns.bind hslot (Returns.bind (Returns.const a) (Returns.bind hins ?_))
  rcases hok : r.ok with - | -
  · exact Returns.const _
  · exact Returns.const _

/-- **`Put`** inserts if the key is absent. -/
theorem Inv.call_put (hinv : Inv h nodes entries) (hk : key ≤ hashSizeLimit) (value : ℕ) :
    ∃ h' nodes', Returns (fun fuel => h.call fuel (.put key value))
        ((entries.call (.put key value)).1, h') ∧
      Inv h' nodes' (entries.call (.put key value)).2 ∧
      Makes (h.maybeResize.missing (h.maybeResize.getSlotIdx key)) h.maybeResize h' := by
  obtain ⟨h₁, nodes₁, a, j, hslot, hinv₁, ha, hkey, hj, hmakes⟩ :=
    hinv.maybeResize.ensureSlotExists (hinv.maybeResize.valid_getSlotIdx key)
  have hstart := starts_of_slot hk ha hkey (and_key_of_and_getSlotIdx hj)
  have hk31 := lt_of_le_limit hk
  rcases Decidable.em (key ∈ entries) with hmem | hmem
  · have hcall : entries.call (.put key value) = (.put false, entries) := if_pos hmem
    obtain ⟨v, hv⟩ := Option.isSome_iff_exists.1 (AList.lookup_isSome.2 hmem)
    obtain ⟨b, hb, hbkey, -⟩ := (hinv₁.holds.lookup key hk31 v).1 hv
    have hins := hinv₁.listed.returns_insert_of_mem hstart hb hbkey value
    rw [hcall]
    refine ⟨_, nodes₁, (returns_put hk hslot hins).map, { hinv₁ with
      listed := hinv₁.listed.newNode value
      holds := hinv₁.holds.congr fun c hc =>
        ⟨hinv₁.listed.key_newNode hc, hinv₁.listed.value_newNode hc⟩
      slots := fun l hl c hc => ?_ }, { hmakes with }⟩
    obtain ⟨hc', hckey⟩ := hinv₁.slots l hl c hc
    exact ⟨hc', (hinv₁.listed.key_newNode hc').trans hckey⟩
  · have hcall : entries.call (.put key value) = (.put true, entries.insert key value) :=
      if_neg hmem
    obtain ⟨m', nodes', hins, hadd⟩ :=
      hinv₁.listed.returns_insert hstart (hinv₁.holds.key_ne_of_not_mem hk31 hmem) value
    rw [hcall]
    refine ⟨_, nodes', (returns_put hk hslot hins).map, { hinv₁ with
      listed := hadd.listed
      holds := hinv₁.holds.added_regular hk31 hmem hadd
      slots := fun l hl c hc => ?_
      size := ?_ }, { hmakes with }⟩
    · obtain ⟨hc', hckey⟩ := hinv₁.slots l hl c hc
      exact ⟨(hadd.mem c).2 (Or.inl hc'), (hadd.key c hc').trans hckey⟩
    · -- the counter does not wrap, since there are not that many keys
      have hlen := hinv₁.holds.length_le
      have hsize := hinv₁.size
      rw [AList.keys_insert, List.length_cons, List.erase_of_not_mem hmem]
      simp only [if_true]
      omega

/-- The slot from which `Get` searches. -/
theorem Inv.getFrom (hinv : Inv h nodes entries) (hi : Valid depth i) :
    ∃ j a, h.slot j = some a ∧ Valid depth j ∧ j &&& i = j ∧ ∀ fuel rounds,
      h.getFrom key fuel (rounds + 3) i = h.list.search (some a) (regularKey key) fuel := by
  have hread (l : ℕ) : (h.getSlotIfExists l).bind (SlotTree.load depth h.head) = h.slot l :=
    SlotTree.bind_getSlot_load ..
  have hfound {l a : ℕ} (ha : h.slot l = some a) (fuel rounds : ℕ) :
      h.getFrom key fuel (rounds + 1) l = h.list.search (some a) (regularKey key) fuel := by
    simp only [Hash.getFrom, hread, ha]
  have hparent {l q : ℕ} (hl : h.slot l = none) (hq : parentSlot l = some q) (fuel rounds : ℕ) :
      h.getFrom key fuel (rounds + 1) l = h.getFrom key fuel rounds q := by
    simp only [Hash.getFrom, hread, hl, hq, Option.bind_eq_bind, Option.bind_some]
  have hpos {l : ℕ} (hl : h.slot l = none) : 0 < l := by
    rcases Nat.eq_zero_or_pos l with rfl | hpos
    · exact absurd hinv.zero (by rw [hl]; decide)
    · exact hpos
  rcases hi' : h.slot i with - | a
  · obtain ⟨q, hq, hand, -, hlt⟩ := parentSlot_spec (hpos hi') (hi.2.trans (by decide))
    rcases hq' : h.slot q with - | a
    · obtain ⟨a, ha⟩ := Option.isSome_iff_exists.1 hinv.zero
      refine ⟨0, a, ha, valid_zero, Nat.zero_and i, fun fuel rounds => ?_⟩
      rw [hparent hi' hq, hparent hq' (parentSlot_of_lt (hpos hq') hlt), hfound ha]
    · refine ⟨q, a, hq', hi.of_and hand, hand, fun fuel rounds => ?_⟩
      rw [hparent hi' hq, hfound hq']
  · exact ⟨i, a, hi', hi, Nat.and_self i, fun fuel rounds => hfound hi' fuel _⟩

theorem returns_get {a : ℕ} {r : Result} (hk : key ≤ hashSizeLimit)
    (hget : ∀ fuel rounds, h.getFrom key fuel (rounds + 3) (h.getSlotIdx key) =
      h.list.search (some a) (regularKey key) fuel)
    (hsearch : Returns (h.list.search (some a) (regularKey key)) (h.list, r)) :
    Returns (h.get key) (if r.ok then r.value else none, h) := by
  obtain ⟨n, hn⟩ := hsearch
  refine ⟨n + 3, fun fuel hfuel => ?_⟩
  obtain ⟨rounds, rfl⟩ : ∃ rounds, fuel = rounds + 3 := ⟨fuel - 3, by omega⟩
  rw [Hash.get, if_neg (Nat.not_lt.2 hk), hget, hn _ (by omega)]
  rfl

/-- **`Get`** finds the value of the key. -/
theorem Inv.call_get (hinv : Inv h nodes entries) (hk : key ≤ hashSizeLimit) :
    Returns (fun fuel => h.call fuel (.get key)) (.get (entries.lookup key), h) := by
  obtain ⟨j, a, hslot, hv, hand, hget⟩ := hinv.getFrom (hinv.valid_getSlotIdx key)
  obtain ⟨ha, hkey⟩ := hinv.slots j hv a hslot
  have hstart := starts_of_slot hk ha hkey (and_key_of_and_getSlotIdx hand)
  have hk31 := lt_of_le_limit hk
  rcases hv : entries.lookup key with - | v
  · have habsent := hinv.holds.key_ne_of_not_mem hk31 (AList.lookup_eq_none.1 hv)
    exact (returns_get hk hget (hinv.listed.returns_search_of_absent hstart habsent)).map
  · obtain ⟨b, hb, hbkey, rfl⟩ := (hinv.holds.lookup key hk31 v).1 hv
    exact (returns_get hk hget (hinv.listed.returns_search hstart hb hbkey)).map

theorem Inv.call (hinv : Inv h nodes entries) {c : HashCall} (hc : c.key ≤ hashSizeLimit) :
    ∃ h' nodes', Returns (fun fuel => h.call fuel c) ((entries.call c).1, h') ∧
      Inv h' nodes' (entries.call c).2 := by
  rcases c with ⟨key, value⟩ | key
  · obtain ⟨h', nodes', hret, hinv', -⟩ := hinv.call_put hc value
    exact ⟨h', nodes', hret, hinv'⟩
  · exact ⟨h, nodes, hinv.call_get hc, hinv⟩

/-- **A sequence of calls** answers as the map does. -/
theorem Inv.run (hinv : Inv h nodes entries) {calls : List HashCall}
    (hcalls : ∀ c ∈ calls, c.key ≤ hashSizeLimit) :
    ∃ h' nodes', Returns (fun fuel => Hash.run fuel calls h) ((Entries.run calls entries).1, h') ∧
      Inv h' nodes' (Entries.run calls entries).2 := by
  induction calls generalizing h nodes entries with
  | nil => exact ⟨h, nodes, Returns.const _, hinv⟩
  | cons c calls ih =>
    obtain ⟨h₁, nodes₁, hret₁, hinv₁⟩ := hinv.call (hcalls c List.mem_cons_self)
    obtain ⟨h₂, nodes₂, hret₂, hinv₂⟩ := ih hinv₁ fun d hd => hcalls d (List.mem_cons_of_mem _ hd)
    exact ⟨h₂, nodes₂, Returns.bind hret₁ (Returns.bind hret₂ (Returns.const _)), hinv₂⟩

theorem ceilDiv_le {e l : ℕ} (he : 0 < e) (hl : 0 < l) : (e + l - 1) / l ≤ e := by
  refine Nat.div_le_of_le_mul ?_
  obtain ⟨e, rfl⟩ : ∃ k, e = k + 1 := ⟨e - 1, by omega⟩
  have hmul : e ≤ l * e := Nat.le_mul_of_pos_left e hl
  rw [Nat.mul_succ]
  omega

/-- **The constructor** makes an empty table, with slot 0. -/
theorem inv_new {e l : ℕ} (he : 0 < e) (he' : e < hashSizeLimit) (hl : 0 < l) (hle : l ≤ e) :
    ∃ (h : Hash (calcLevelNr e - 1) τ) (nodes : List ℕ), Returns (Hash.new e l) h ∧
      Inv h nodes ∅ ∧ Makes [0] (blank τ e l) h := by
  have hlisted : Listed (blank τ e l).list [] := by
    refine ⟨rfl, List.Pairwise.nil, fun q hq => rfl, fun a ha => absurd ha List.not_mem_nil⟩
  obtain ⟨m', nodes, hret, hadd⟩ := hlisted.returns_insert (p := none) (k := dummyKey 0)
    (Or.inl rfl) (fun a ha => absurd ha List.not_mem_nil) 0
  have hempty (i : ℕ) : Hash.slot { blank τ e l with list := m' } i = none := slot_blank τ e l i
  have hpow : 512 ≤ 512 ^ (calcLevelNr e - 1 + 1) := by
    rw [Nat.pow_succ]
    exact Nat.le_mul_of_pos_left 512 (Nat.pow_pos (by decide))
  have hmax := ceilDiv_le he hl
  refine ⟨Hash.filled { blank τ e l with list := m' } 0 (blank τ e l).list.fresh, nodes, ?_,
    ⟨hadd.listed, ?_, ?_, ?_, rfl, Nat.two_pos, ⟨(show 2 ≤ 512 by decide).trans hpow,
      show 2 ≤ 2 ^ 31 by decide⟩, ⟨hmax.trans (le_pow_calcLevelNr e),
      hmax.trans (he'.le.trans (by decide))⟩⟩, makes_filled valid_zero.1 m' _⟩
  · unfold Hash.new
    simp only [if_pos (show 0 < e ∧ e < hashSizeLimit ∧ 0 < l ∧ l ≤ e from ⟨he, he', hl, hle⟩),
      getOrCreateSlot_eq, Option.bind_eq_bind, Option.bind_some]
    exact Returns.bind hret (Returns.const _)
  · refine ⟨fun k _ v => ?_, fun k hk => absurd hk List.not_mem_nil⟩
    refine iff_of_false (by simp) ?_
    rintro ⟨a, ha, hkey, -⟩
    obtain rfl := ((hadd.mem a).1 ha).resolve_left List.not_mem_nil
    exact dummyKey_ne_regularKey (by decide) k (hadd.key_self.symm.trans hkey)
  · intro i hi a ha
    rcases eq_or_ne i 0 with rfl | hne
    · obtain rfl := Option.some.inj (slot_filled_self.symm.trans ha)
      exact ⟨(hadd.mem _).2 (Or.inr rfl), hadd.key_self⟩
    · rw [slot_filled_of_ne valid_zero.1 hi.1 hne, hempty] at ha
      exact nomatch ha
  · exact Option.isSome_iff_exists.2 ⟨_, slot_filled_self⟩

/-- **`Hash` is an insert-if-absent map** for every admitted size and
load factor, across all doublings of its slots: a `Put` succeeds if its
key has not been put before, a `Get` yields what was put first, and the
size is the number of distinct keys. -/
theorem returns_expected {e l : ℕ} (he : 0 < e) (he' : e < hashSizeLimit) (hl : 0 < l) (hle : l ≤ e)
    (calls : List HashCall) (hcalls : ∀ c ∈ calls, c.key ≤ hashSizeLimit) :
    ∃ h : Hash (calcLevelNr e - 1) τ,
      Returns (fun fuel => (Hash.new e l fuel).bind (Hash.run fuel calls)) (expected [] calls, h) ∧
      h.size = (calls.filterMap HashCall.putKey?).dedup.length := by
  obtain ⟨h₀, nodes₀, hnew, hinv₀, -⟩ := inv_new (τ := τ) he he' hl hle
  obtain ⟨h, nodes, hrun, hinv⟩ := hinv₀.run hcalls
  obtain ⟨hanswers, hlookup⟩ : (Entries.run calls ∅).1 = expected [] calls ∧
      ∀ k, (Entries.run calls ∅).2.lookup k = firstPut calls k := Entries.run_eq fun k => rfl
  rw [hanswers] at hrun
  exact ⟨h, Returns.bind hnew hrun, hinv.size.trans (Entries.length_keys hlookup)⟩

theorem returns_expected_puts :
    ∃ h : Hash (calcLevelNr 100 - 1) ℕ,
      Returns (fun fuel => (Hash.new 100 1 fuel).bind
          (Hash.run fuel [.put 3 4, .put 3 5, .put 11 6, .get 3, .get 7]))
        ([.put true, .put false, .put true, .get (some 4), .get none], h) ∧ h.size = 2 :=
  returns_expected (e := 100) (l := 1) (by decide) (by decide) (by decide) (by decide)
    [.put 3 4, .put 3 5, .put 11 6, .get 3, .get 7] (by decide)

end Calls

end Hash

end Concurrent

end CppEtudes
