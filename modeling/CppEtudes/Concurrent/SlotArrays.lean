import CppEtudes.Concurrent.Model.SlotArrays
import CppEtudes.Concurrent.SplitOrder
import Mathlib.Algebra.Order.BigOperators.Group.List
import Mathlib.Algebra.Order.Ring.Nat

/-!
# The cells of the slots

The arrays on the way to a slot are those along its path, one index a
level. `get_slot` links in arrays that are missing on that path and
nothing else (`Grows`), so each array keeps its path and each entry of a
last array its content. The memory is therefore the tree that the table is
modelled with, whatever addresses the allocator gives (`tree_run`).
-/

namespace CppEtudes

namespace Concurrent

open ArrayTree

/-- The path to the last array of a slot, its last step first. -/
def slotPath (depth slotI : ℕ) : List (Fin slotIndexNr) :=
  (List.range depth).map fun k => slotIndex (k + 1) slotI

theorem length_slotPath (depth slotI : ℕ) : (slotPath depth slotI).length = depth := by
  rw [slotPath, List.length_map, List.length_range]

theorem drop_slotPath_self (depth slotI : ℕ) : (slotPath depth slotI).drop depth = [] :=
  List.drop_of_length_le (Nat.le_of_eq (length_slotPath depth slotI))

theorem drop_slotPath {depth level : ℕ} (slotI : ℕ) (h : level < depth) :
    (slotPath depth slotI).drop level =
      slotIndex (level + 1) slotI :: (slotPath depth slotI).drop (level + 1) := by
  have hlt : level < (slotPath depth slotI).length := by rwa [length_slotPath]
  rw [List.drop_eq_getElem_cons hlt]
  simp [slotPath]

theorem length_drop_slotPath {depth level : ℕ} (slotI : ℕ) (h : level ≤ depth) :
    ((slotPath depth slotI).drop level).length + level = depth := by
  rw [List.length_drop, length_slotPath, Nat.sub_add_cancel h]

/-- Slots with the same path and the same last index are the same. -/
theorem eq_of_slotPath {depth i j : ℕ} (hi : i < 512 ^ (depth + 1)) (hj : j < 512 ^ (depth + 1))
    (hpath : slotPath depth i = slotPath depth j) (hlast : slotIndex 0 i = slotIndex 0 j) :
    i = j := by
  have hcell (n : ℕ) (hn : n ≤ depth) : cellOf n i = cellOf n j := by
    induction n with
    | zero => exact hlast
    | succ n ih =>
      have hdrop := congrArg (List.drop n) hpath
      rw [drop_slotPath i hn, drop_slotPath j hn] at hdrop
      rw [cellOf, cellOf, ih (Nat.le_of_succ_le hn), (List.cons.inj hdrop).1]
  exact cellOf_inj hi hj (hcell depth (Nat.le_refl _))

namespace SlotMemory

variable {m m' m'' : SlotMemory} {head depth : ℕ} {p : List (Fin slotIndexNr)}
variable {alloc : List ℕ → ℕ} {a i j n slotI level currentHead subHead : ℕ}

/-- The arrays of a memory make up a tree. -/
def IsTree (m : SlotMemory) (head depth : ℕ) : Prop := Unshared m.slots head depth m.arrays

/-- **Arrays are linked in** below the path `p`. -/
structure Grows (head depth : ℕ) (p : List (Fin slotIndexNr)) (m m' : SlotMemory) : Prop where
  tree : m'.IsTree head depth
  arrays : ∀ q a, q.length ≤ depth → arrayAt m.slots head q = some a →
    arrayAt m'.slots head q = some a
  frame : ∀ q, q.length ≤ depth → ¬ p <:+ q → arrayAt m'.slots head q = arrayAt m.slots head q
  leaves : ∀ q a, q.length = depth → arrayAt m.slots head q = some a → m'.slots a = m.slots a

theorem Grows.refl (h : m.IsTree head depth) : Grows head depth p m m :=
  ⟨h, fun _ _ _ hq => hq, fun _ _ _ => rfl, fun _ _ _ _ => rfl⟩

theorem Grows.trans (h : Grows head depth p m m') (h' : Grows head depth p m' m'') :
    Grows head depth p m m'' where
  tree := h'.tree
  arrays q a hq ha := h'.arrays q a hq (h.arrays q a hq ha)
  frame q hq hp := (h'.frame q hq hp).trans (h.frame q hq hp)
  leaves q a hq ha :=
    (h'.leaves q a hq (h.arrays q a (Nat.le_of_eq hq) ha)).trans (h.leaves q a hq ha)

theorem Grows.of_suffix {p' : List (Fin slotIndexNr)} (h : Grows head depth p' m m')
    (hp : p <:+ p') : Grows head depth p m m' :=
  { h with frame := fun q hq hnot => h.frame q hq fun hq' => hnot (hp.trans hq') }

/-- The memory with a new array linked in at an entry. -/
def linked (alloc : List ℕ → ℕ) (m : SlotMemory) (slotPtr : SlotPtr) : SlotMemory :=
  (m.newArray alloc).2.store slotPtr (some (alloc m.arrays))

/-- **One array is linked in.** -/
theorem IsTree.linked (h : m.IsTree head depth) (halloc : ∀ used, alloc used ∉ used)
    {i : Fin slotIndexNr} (ha : arrayAt m.slots head p = some a) (hp : p.length < depth)
    (hfree : m.slots a i = none) :
    Grows head depth (i :: p) m (m.linked alloc (a, i)) ∧
      arrayAt (m.linked alloc (a, i)).slots head (i :: p) = some (alloc m.arrays) := by
  have hb := halloc m.arrays
  have hgrow (q : List (Fin slotIndexNr)) (hq : q.length ≤ depth) :
      arrayAt (m.linked alloc (a, i)).slots head q =
        if q = i :: p then some (alloc m.arrays) else arrayAt m.slots head q :=
    h.arrayAt_grow ha hp hfree hb hq
  refine ⟨⟨h.grow ha hp hfree hb, fun q x hq hx => ?_, fun q hq hnot => ?_,
    fun q x hq hx => ?_⟩, ?_⟩
  · rw [hgrow q hq, if_neg, hx]
    rintro rfl
    rw [arrayAt, ha, Option.bind_some, hfree] at hx
    exact absurd hx.symm (Option.some_ne_none x)
  · rw [hgrow q hq, if_neg]
    rintro rfl
    exact hnot (List.suffix_refl _)
  · have hxa : x ≠ a := by
      rintro rfl
      obtain rfl := h.inj q p x (Nat.le_of_eq hq) (Nat.le_of_lt hp) hx ha
      omega
    have hxb : x ≠ alloc m.arrays := fun heq => hb (heq ▸ h.mem q x (Nat.le_of_eq hq) hx)
    exact (write_of_ne hxa).trans (clear_of_ne hxb)
  · rw [hgrow (i :: p) hp, if_pos rfl]

theorem getSlot_succ_of_some {create : Bool}
    (h : m.slots currentHead (slotIndex (level + 1) slotI) = some subHead) :
    m.getSlot alloc slotI create (level + 1) currentHead =
      m.getSlot alloc slotI create level subHead := by
  rw [getSlot, show m.load (currentHead, slotIndex (level + 1) slotI) = some subHead from h]

theorem getSlot_succ_of_none (h : m.slots currentHead (slotIndex (level + 1) slotI) = none) :
    m.getSlot alloc slotI true (level + 1) currentHead =
      (m.linked alloc (currentHead, slotIndex (level + 1) slotI)).getSlot alloc slotI true level
        (alloc m.arrays) := by
  rw [getSlot, show m.load (currentHead, slotIndex (level + 1) slotI) = none from h]
  rfl

theorem getSlot_succ_false_of_none (h : m.slots currentHead (slotIndex (level + 1) slotI) = none) :
    m.getSlot alloc slotI false (level + 1) currentHead = (none, m) := by
  rw [getSlot, show m.load (currentHead, slotIndex (level + 1) slotI) = none from h]
  rfl

/-- What **`get_slot`** returns, and what it leaves. -/
structure Got (head depth slotI : ℕ) (create : Bool) (p : List (Fin slotIndexNr))
    (m : SlotMemory) (r : Option SlotPtr × SlotMemory) : Prop where
  grows : Grows head depth p m r.2
  ptr : r.1 = (arrayAt r.2.slots head (slotPath depth slotI)).map fun a => (a, slotIndex 0 slotI)
  exists_of_create : create = true → (arrayAt r.2.slots head (slotPath depth slotI)).isSome

theorem suffix_drop_pred (l : List (Fin slotIndexNr)) (k : ℕ) : l.drop k <:+ l.drop (k - 1) := by
  rcases k with - | k
  · exact List.suffix_refl _
  · rw [Nat.add_sub_cancel, ← List.drop_drop]
    exact List.drop_suffix 1 _

/-- **`get_slot`** follows the path of its slot, and creates what is
missing on it. -/
theorem IsTree.getSlot (h : m.IsTree head depth) (halloc : ∀ used, alloc used ∉ used) (slotI : ℕ)
    (create : Bool) (hlevel : level ≤ depth)
    (hat : arrayAt m.slots head ((slotPath depth slotI).drop level) = some currentHead) :
    Got head depth slotI create ((slotPath depth slotI).drop (level - 1)) m
      (m.getSlot alloc slotI create level currentHead) := by
  -- the arrays on the path, from the root down
  induction level generalizing m currentHead with
  | zero =>
    rw [List.drop_zero] at hat
    refine ⟨Grows.refl h, ?_, fun _ => ?_⟩
    · rw [SlotMemory.getSlot, hat]
      rfl
    · rw [SlotMemory.getSlot, hat]
      rfl
  | succ level ih =>
    have hpath := drop_slotPath slotI hlevel
    have hsuffix := suffix_drop_pred (slotPath depth slotI) level
    rcases hsub : m.slots currentHead (slotIndex (level + 1) slotI) with - | subHead
    · rcases create with - | -
      · rw [getSlot_succ_false_of_none hsub]
        refine ⟨Grows.refl h, ?_, nofun⟩
        have hend : arrayAt m.slots head ((slotPath depth slotI).drop level) = none := by
          rw [hpath, arrayAt, hat, Option.bind_some, hsub]
        rw [arrayAt_eq_none_of_suffix hend (List.drop_suffix _ _)]
        rfl
      · have hlength := length_drop_slotPath slotI hlevel
        obtain ⟨hgrows, hnew⟩ := h.linked halloc hat (by omega) hsub
        rw [← hpath] at hgrows hnew
        have hrest := ih hgrows.tree (Nat.le_of_succ_le hlevel) hnew
        rw [getSlot_succ_of_none hsub]
        exact ⟨hgrows.trans (hrest.grows.of_suffix hsuffix), hrest.ptr, hrest.exists_of_create⟩
    · have hsub' : arrayAt m.slots head ((slotPath depth slotI).drop level) = some subHead := by
        rw [hpath, arrayAt, hat, Option.bind_some, hsub]
      have hrest := ih h (Nat.le_of_succ_le hlevel) hsub'
      rw [getSlot_succ_of_some hsub]
      exact { hrest with grows := hrest.grows.of_suffix hsuffix }

/-- From the root. -/
theorem IsTree.getSlot_head (h : m.IsTree head depth) (halloc : ∀ used, alloc used ∉ used)
    (slotI : ℕ) (create : Bool) :
    Got head depth slotI create ((slotPath depth slotI).drop (depth - 1)) m
      (m.getSlot alloc slotI create depth head) := by
  refine h.getSlot halloc slotI create (Nat.le_refl depth) ?_
  rw [drop_slotPath_self]
  rfl

/-- Without creating, nothing changes. -/
theorem getSlot_false_snd (m : SlotMemory) (slotI level currentHead : ℕ) :
    (m.getSlot alloc slotI false level currentHead).2 = m := by
  induction level generalizing currentHead with
  | zero => rfl
  | succ level ih =>
    rcases hsub : m.slots currentHead (slotIndex (level + 1) slotI) with - | subHead
    · rw [getSlot_succ_false_of_none hsub]
    · rw [getSlot_succ_of_some hsub, ih]

/-- The entry that a call has returned is that of the array at the end of
the slot's path. -/
theorem Got.exists_array {create : Bool} {r : Option SlotPtr × SlotMemory} {c : SlotPtr}
    (h : Got head depth slotI create p m r) (hc : r.1 = some c) :
    ∃ a, arrayAt r.2.slots head (slotPath depth slotI) = some a ∧ c = (a, slotIndex 0 slotI) := by
  rw [h.ptr] at hc
  obtain ⟨a, ha, rfl⟩ := Option.map_eq_some_iff.1 hc
  exact ⟨a, ha, rfl⟩

/-! ## Sequences of calls -/

/-- **Every array keeps its path.** -/
structure Extends (head depth : ℕ) (m m' : SlotMemory) : Prop where
  tree : m'.IsTree head depth
  arrays : ∀ q a, q.length ≤ depth → arrayAt m.slots head q = some a →
    arrayAt m'.slots head q = some a

section Calls

variable (h : m.IsTree head depth) (halloc : ∀ used, alloc used ∉ used)
include h halloc

/-- `*get_or_create_slot(slot_i) = v`. -/
theorem IsTree.call_put (slotI : ℕ) (v : Option ℕ) :
    ∃ a, arrayAt (m.getSlot alloc slotI true depth head).2.slots head (slotPath depth slotI) =
        some a ∧
      m.call alloc depth head (.put slotI v) =
        (m.getSlot alloc slotI true depth head).2.store (a, slotIndex 0 slotI) v := by
  have hgot := h.getSlot_head halloc slotI true
  obtain ⟨a, ha⟩ := Option.isSome_iff_exists.1 (hgot.exists_of_create rfl)
  refine ⟨a, ha, ?_⟩
  have hptr := hgot.ptr
  rw [ha, Option.map_some] at hptr
  rw [call]
  rcases hr : m.getSlot alloc slotI true depth head with ⟨c, m₁⟩
  rw [hr] at hptr
  obtain rfl : c = some (a, slotIndex 0 slotI) := hptr
  rfl

theorem IsTree.call (c : SlotCall) : Extends head depth m (m.call alloc depth head c) := by
  rcases c with ⟨slotI, create⟩ | ⟨slotI, v⟩
  · have hgrows := (h.getSlot_head halloc slotI create).grows
    exact ⟨hgrows.tree, hgrows.arrays⟩
  · have hgrows := (h.getSlot_head halloc slotI true).grows
    obtain ⟨a, ha, hput⟩ := h.call_put halloc slotI v
    have hlength := length_slotPath depth slotI
    rw [hput]
    refine ⟨hgrows.tree.fill ha hlength, fun q x hq hx => ?_⟩
    exact (hgrows.tree.arrayAt_fill ha hlength hq).trans (hgrows.arrays q x hq hx)

theorem IsTree.run (calls : List SlotCall) :
    Extends head depth m (m.run alloc depth head calls) := by
  induction calls generalizing m with
  | nil => exact ⟨h, fun _ _ _ hq => hq⟩
  | cons c calls ih =>
    have hcall := h.call halloc c
    have hrest := ih hcall.tree
    exact ⟨hrest.tree, fun q a hq ha => hrest.arrays q a hq (hcall.arrays q a hq ha)⟩

/-- **A call at any later time** finds the array of the first where it
was. -/
theorem IsTree.getSlot_after {create : Bool} {c : SlotPtr} (j : ℕ) (create' : Bool)
    (calls : List SlotCall) (hc : (m.getSlot alloc i create depth head).1 = some c) :
    ∃ p m₁ a, Got head depth j create' p m₁ (((m.call alloc depth head (.get i create)).run alloc
        depth head calls).getSlot alloc j create' depth head) ∧
      c = (a, slotIndex 0 i) ∧
      arrayAt (((m.call alloc depth head (.get i create)).run alloc depth head calls).getSlot alloc j
        create' depth head).2.slots head (slotPath depth i) = some a := by
  have hgot := h.getSlot_head halloc i create
  have hlater := hgot.grows.tree.run halloc calls
  have hgot' := hlater.tree.getSlot_head halloc j create'
  have hlength : (slotPath depth i).length ≤ depth := Nat.le_of_eq (length_slotPath depth i)
  obtain ⟨a, ha, rfl⟩ := hgot.exists_array hc
  exact ⟨_, _, a, hgot', rfl, hgot'.grows.arrays _ a hlength (hlater.arrays _ a hlength ha)⟩

/-- **Two calls at any two times** return the same entry for the same slot
only. -/
theorem IsTree.getSlot_later {create create' : Bool} {c c' : SlotPtr} (calls : List SlotCall)
    (hc : (m.getSlot alloc i create depth head).1 = some c)
    (hc' : (((m.call alloc depth head (.get i create)).run alloc depth head calls).getSlot alloc j
      create' depth head).1 = some c') (hi : i < 512 ^ (depth + 1)) (hj : j < 512 ^ (depth + 1)) :
    c = c' ↔ i = j := by
  obtain ⟨p, m₁, a, hgot, rfl, hkept⟩ := h.getSlot_after halloc j create' calls hc
  obtain ⟨a', ha', rfl⟩ := hgot.exists_array hc'
  have hlength (i : ℕ) : (slotPath depth i).length ≤ depth := Nat.le_of_eq (length_slotPath depth i)
  constructor
  · intro heq
    obtain ⟨rfl, hlast⟩ := Prod.mk.inj heq
    have hpath := hgot.grows.tree.inj _ _ a (hlength i) (hlength j) hkept ha'
    exact eq_of_slotPath hi hj hpath hlast
  · rintro rfl
    rw [Option.some.inj (hkept.symm.trans ha')]

/-- **A slot that has been created** is found ever after. -/
theorem IsTree.getSlot_again {create : Bool} {c : SlotPtr} (create' : Bool) (calls : List SlotCall)
    (hc : (m.getSlot alloc i create depth head).1 = some c) :
    (((m.call alloc depth head (.get i create)).run alloc depth head calls).getSlot alloc i
      create' depth head).1 = some c := by
  obtain ⟨p, m₁, a, hgot, rfl, hkept⟩ := h.getSlot_after halloc i create' calls hc
  rw [hgot.ptr, hkept, Option.map_some]

/-- **The content of a slot** stays when others are created. -/
theorem IsTree.load_getSlot {c : SlotPtr} (i : ℕ) (create : Bool)
    (hc : (m.getSlot alloc j false depth head).1 = some c) :
    (m.getSlot alloc i create depth head).2.load c = m.load c := by
  obtain ⟨a, ha, rfl⟩ := (h.getSlot_head halloc j false).exists_array hc
  rw [getSlot_false_snd] at ha
  have hsame := (h.getSlot_head halloc i create).grows.leaves _ a (length_slotPath depth j) ha
  exact congrFun hsame _

end Calls

theorem isTree_start (alloc : List ℕ → ℕ) (slots : ℕ → Fin slotIndexNr → Option ℕ) (depth : ℕ) :
    (start alloc slots).2.IsTree (start alloc slots).1 depth :=
  unshared_root depth (clear_self slots _) List.mem_cons_self

/-! ## The tree in memory -/

/-- The tree below the array at the end of a path. -/
def treeAt (m : SlotMemory) (head : ℕ) : (n : ℕ) → List (Fin slotIndexNr) → SlotTree n
  | 0, p => fun i => (arrayAt m.slots head p).bind fun a => m.slots a i
  | n + 1, p => fun i =>
    if (arrayAt m.slots head (i :: p)).isSome then some (treeAt m head n (i :: p)) else none

theorem treeAt_zero (i : Fin slotIndexNr) :
    treeAt m head 0 p i = (arrayAt m.slots head p).bind fun a => m.slots a i := rfl

theorem treeAt_succ (n : ℕ) (i : Fin slotIndexNr) : treeAt m head (n + 1) p i =
    if (arrayAt m.slots head (i :: p)).isSome then some (treeAt m head n (i :: p)) else none := rfl

theorem treeAt_succ_of_some {i : Fin slotIndexNr} (n : ℕ)
    (h : arrayAt m.slots head (i :: p) = some a) :
    treeAt m head (n + 1) p i = some (treeAt m head n (i :: p)) := by
  rw [treeAt_succ, h]
  rfl

theorem treeAt_succ_of_none {i : Fin slotIndexNr} (n : ℕ)
    (h : arrayAt m.slots head (i :: p) = none) : treeAt m head (n + 1) p i = none := by
  rw [treeAt_succ, h]
  rfl

theorem treeAt_congr
    (harrays : ∀ q, p <:+ q → q.length ≤ p.length + n →
      arrayAt m'.slots head q = arrayAt m.slots head q)
    (hleaves : ∀ q a, p <:+ q → q.length = p.length + n → arrayAt m.slots head q = some a →
      m'.slots a = m.slots a) : treeAt m' head n p = treeAt m head n p := by
  induction n generalizing p with
  | zero =>
    funext i
    rw [treeAt_zero, treeAt_zero, harrays p (List.suffix_refl p) (Nat.le_refl _)]
    rcases ha : arrayAt m.slots head p with - | a
    · rfl
    · rw [Option.bind_some, Option.bind_some, hleaves p a (List.suffix_refl p) rfl ha]
  | succ n ih =>
    funext i
    have hlength : (i :: p).length + n = p.length + (n + 1) := by
      rw [List.length_cons]
      omega
    rw [treeAt_succ, treeAt_succ, harrays (i :: p) (List.suffix_cons i p) (by omega)]
    rw [ih (fun q hq hlen => harrays q ((List.suffix_cons i p).trans hq) (hlength ▸ hlen))
      fun q a hq hlen => hleaves q a ((List.suffix_cons i p).trans hq) (hlength ▸ hlen)]

/-- An array without entries is a new tree. -/
theorem treeAt_empty (ha : arrayAt m.slots head p = some a) (hempty : ∀ i, m.slots a i = none) :
    treeAt m head n p = SlotTree.new n := by
  rcases n with - | n
  · funext i
    rw [treeAt_zero, ha, Option.bind_some, hempty]
    rfl
  · funext i
    refine treeAt_succ_of_none n ?_
    rw [arrayAt, ha, Option.bind_some, hempty]

/-- A tree of which only one part has changed. -/
theorem treeAt_eq_update {i : Fin slotIndexNr}
    (harrays : ∀ q, q.length ≤ depth → ¬ i :: p <:+ q →
      arrayAt m'.slots head q = arrayAt m.slots head q)
    (hleaves : ∀ q b, q.length = depth → ¬ i :: p <:+ q → arrayAt m.slots head q = some b →
      m'.slots b = m.slots b) (hn : p.length + (n + 1) = depth)
    (hi : arrayAt m'.slots head (i :: p) = some a) :
    treeAt m' head (n + 1) p =
      Function.update (treeAt m head (n + 1) p) i (some (treeAt m' head n (i :: p))) := by
  funext j
  rcases eq_or_ne j i with rfl | hji
  · rw [Function.update_self, treeAt_succ_of_some n hi]
  · have hother {q : List (Fin slotIndexNr)} (hq : j :: p <:+ q) : ¬ i :: p <:+ q := by
      intro hq'
      have heq : j :: p = i :: p := List.IsSuffix.eq_of_length
        (List.suffix_of_suffix_length_le hq hq' (Nat.le_refl _)) rfl
      exact hji (List.cons.inj heq).1
    have hlength : (j :: p).length + n = depth := by
      rw [List.length_cons]
      omega
    rw [Function.update_of_ne hji, treeAt_succ, treeAt_succ,
      harrays (j :: p) (by omega) (hother (List.suffix_refl _)),
      treeAt_congr (fun q hq hlen => harrays q (hlength ▸ hlen) (hother hq))
        fun q b hq hlen => hleaves q b (hlen.trans hlength) (hother hq)]

theorem Grows.treeAt_eq {i : Fin slotIndexNr} (h : Grows head depth (i :: p) m m')
    (hn : p.length + (n + 1) = depth) (hi : arrayAt m'.slots head (i :: p) = some a) :
    treeAt m' head (n + 1) p =
      Function.update (treeAt m head (n + 1) p) i (some (treeAt m' head n (i :: p))) :=
  treeAt_eq_update h.frame (fun q b hq _ => h.leaves q b hq) hn hi

/-- The new array has no entries. -/
theorem IsTree.linked_empty (h : m.IsTree head depth) (halloc : ∀ used, alloc used ∉ used)
    {i : Fin slotIndexNr} (ha : arrayAt m.slots head p = some a) (hp : p.length ≤ depth)
    (j : Fin slotIndexNr) : (m.linked alloc (a, i)).slots (alloc m.arrays) j = none := by
  have hne : alloc m.arrays ≠ a := fun heq => halloc m.arrays (heq ▸ h.mem p a hp ha)
  exact (congrFun (write_of_ne hne) j).trans (clear_self m.slots _ j)

/-- **`get_slot` in memory is `get_slot` on the tree.** -/
theorem IsTree.treeAt_getSlot (h : m.IsTree head depth) (halloc : ∀ used, alloc used ∉ used)
    (slotI : ℕ) (create : Bool) (hlevel : level ≤ depth)
    (hat : arrayAt m.slots head ((slotPath depth slotI).drop level) = some currentHead) :
    treeAt (m.getSlot alloc slotI create level currentHead).2 head level
        ((slotPath depth slotI).drop level) =
      (SlotTree.getSlot slotI create level
        (treeAt m head level ((slotPath depth slotI).drop level))).2 := by
  induction level generalizing m currentHead with
  | zero => rfl
  | succ level ih =>
    have hle := Nat.le_of_succ_le hlevel
    have hpath := drop_slotPath slotI hlevel
    have hlength := length_drop_slotPath slotI hlevel
    have hsubLength := length_drop_slotPath slotI hle
    have hgrows := (h.getSlot halloc slotI create hlevel hat).grows
    have hsub : arrayAt m.slots head ((slotPath depth slotI).drop level) =
        m.slots currentHead (slotIndex (level + 1) slotI) := by
      rw [hpath, arrayAt, hat, Option.bind_some]
    rw [Nat.add_sub_cancel] at hgrows
    rw [hpath] at ih hsub hsubLength hgrows
    rcases hentry : m.slots currentHead (slotIndex (level + 1) slotI) with - | subHead
    · have hnone := treeAt_succ_of_none level (hsub.trans hentry)
      rcases create with - | -
      · rw [getSlot_succ_false_of_none hentry, SlotTree.getSlot]
        dsimp only
        rw [hnone]
        rfl
      · -- the new array is an empty tree
        obtain ⟨hlink, hnew⟩ := h.linked halloc hat (by omega) hentry
        have hempty := treeAt_empty (n := level) hnew (h.linked_empty halloc hat (by omega))
        have hrest := ih hlink.tree hle hnew
        have hgot := hlink.tree.getSlot halloc slotI true hle (hpath ▸ hnew)
        have hkept := hgot.grows.arrays _ _ (by omega) hnew
        rw [getSlot_succ_of_none hentry] at hgrows ⊢
        rw [hgrows.treeAt_eq hlength hkept, hrest, hempty, SlotTree.getSlot]
        dsimp only
        rw [hnone]
        rfl
    · have hkept := hgrows.arrays _ _ (by omega) (hsub.trans hentry)
      rw [getSlot_succ_of_some hentry] at hgrows hkept ⊢
      rw [hgrows.treeAt_eq hlength hkept, ih h hle (hsub.trans hentry), SlotTree.getSlot]
      dsimp only
      rw [treeAt_succ_of_some level (hsub.trans hentry)]

/-- **What is written to an entry** is written to the cell of the tree. -/
theorem IsTree.treeAt_store (h : m.IsTree head depth) (v : Option ℕ)
    (ha : arrayAt m.slots head (slotPath depth slotI) = some a) (hn : n ≤ depth) :
    treeAt (m.store (a, slotIndex 0 slotI) v) head n ((slotPath depth slotI).drop n) =
      SlotTree.store v n (treeAt m head n ((slotPath depth slotI).drop n)) (cellOf n slotI) := by
  have hpathLength := length_slotPath depth slotI
  have harrays (q : List (Fin slotIndexNr)) (hq : q.length ≤ depth) :
      arrayAt (m.store (a, slotIndex 0 slotI) v).slots head q = arrayAt m.slots head q :=
    h.arrayAt_fill ha hpathLength hq
  induction n with
  | zero =>
    have hlast (m : SlotMemory) (ha : arrayAt m.slots head (slotPath depth slotI) = some a) :
        treeAt m head 0 (slotPath depth slotI) = m.slots a := by
      funext i
      rw [treeAt_zero, ha, Option.bind_some]
    rw [List.drop_zero, hlast m ha,
      hlast _ ((harrays _ (Nat.le_of_eq hpathLength)).trans ha)]
    exact write_self
  | succ n ih =>
    have hle := Nat.le_of_succ_le hn
    have hpath := drop_slotPath slotI hn
    have hsuffix := hpath ▸ List.drop_suffix n (slotPath depth slotI)
    have hlength := hpath ▸ length_drop_slotPath slotI hle
    rw [hpath] at ih
    rcases hsub : arrayAt m.slots head
        (slotIndex (n + 1) slotI :: (slotPath depth slotI).drop (n + 1)) with - | sub
    · rw [arrayAt_eq_none_of_suffix hsub hsuffix] at ha
      exact nomatch ha
    · have hleaves (q : List (Fin slotIndexNr)) (b : ℕ) (hq : q.length = depth)
          (hnot : ¬ slotIndex (n + 1) slotI :: (slotPath depth slotI).drop (n + 1) <:+ q)
          (hb : arrayAt m.slots head q = some b) :
          (m.store (a, slotIndex 0 slotI) v).slots b = m.slots b := by
        refine write_of_ne ?_
        rintro rfl
        exact hnot (h.inj _ q b (Nat.le_of_eq hpathLength) (Nat.le_of_eq hq) ha hb ▸ hsuffix)
      rw [treeAt_eq_update (fun q hq _ => harrays q hq) hleaves (length_drop_slotPath slotI hn)
        ((harrays _ (by omega)).trans hsub), ih hle, cellOf, SlotTree.store,
        treeAt_succ_of_some n hsub, Option.map_some]

/-- **The tree of a table** whose first array is at `head`. -/
def tree (m : SlotMemory) (head depth : ℕ) : SlotTree depth := treeAt m head depth []

end SlotMemory

/-- A call on the tree. -/
def SlotTree.call {depth : ℕ} (t : SlotTree depth) : SlotCall → SlotTree depth
  | .get slotI createIfNotExists => (getSlot slotI createIfNotExists depth t).2
  | .put slotI v => store v depth (getSlot slotI true depth t).2 (cellOf depth slotI)

namespace SlotMemory

variable {m : SlotMemory} {head depth : ℕ} {alloc : List ℕ → ℕ}

theorem IsTree.tree_getSlot (h : m.IsTree head depth) (halloc : ∀ used, alloc used ∉ used)
    (slotI : ℕ) (create : Bool) :
    (m.getSlot alloc slotI create depth head).2.tree head depth =
      (SlotTree.getSlot slotI create depth (m.tree head depth)).2 := by
  have hroot : arrayAt m.slots head ((slotPath depth slotI).drop depth) = some head := by
    rw [drop_slotPath_self]
    rfl
  have hget := h.treeAt_getSlot halloc slotI create (Nat.le_refl depth) hroot
  rwa [drop_slotPath_self] at hget

/-- **A call in memory is the call on the tree.** -/
theorem IsTree.tree_call (h : m.IsTree head depth) (halloc : ∀ used, alloc used ∉ used)
    (c : SlotCall) :
    (m.call alloc depth head c).tree head depth = (m.tree head depth).call c := by
  rcases c with ⟨slotI, create⟩ | ⟨slotI, v⟩
  · exact h.tree_getSlot halloc slotI create
  · obtain ⟨a, ha, hput⟩ := h.call_put halloc slotI v
    have htree := (h.getSlot_head halloc slotI true).grows.tree
    have hstore := htree.treeAt_store v ha (Nat.le_refl depth)
    rw [drop_slotPath_self] at hstore
    rw [hput, SlotTree.call, ← h.tree_getSlot halloc]
    exact hstore

/-- **The memory of a table** is its tree, after any calls. -/
theorem tree_run (halloc : ∀ used, alloc used ∉ used) (slots : ℕ → Fin slotIndexNr → Option ℕ)
    (depth : ℕ) (calls : List SlotCall) :
    ((start alloc slots).2.run alloc depth (start alloc slots).1 calls).tree
        (start alloc slots).1 depth =
      calls.foldl SlotTree.call (SlotTree.new depth) := by
  have hrun (m : SlotMemory) (h : m.IsTree (start alloc slots).1 depth) :
      (m.run alloc depth (start alloc slots).1 calls).tree (start alloc slots).1 depth =
        calls.foldl SlotTree.call (m.tree (start alloc slots).1 depth) := by
    induction calls generalizing m with
    | nil => rfl
    | cons c calls ih =>
      rw [List.foldl_cons, ← h.tree_call halloc c]
      exact ih _ (h.call halloc c).tree
  rw [hrun _ (isTree_start alloc slots depth)]
  have hnew : (start alloc slots).2.tree (start alloc slots).1 depth = SlotTree.new depth :=
    treeAt_empty rfl (clear_self slots (alloc []))
  rw [hnew]

/-! ## The cells of a table -/

/-- **A cell that is returned** is in an array of the tree, that at the end
of the slot's path. -/
theorem IsTree.getSlot_mem (h : m.IsTree head depth) (halloc : ∀ used, alloc used ∉ used)
    {i : ℕ} {create : Bool} {c : SlotPtr}
    (hc : (m.getSlot alloc i create depth head).1 = some c) :
    c.1 ∈ (m.getSlot alloc i create depth head).2.arrays ∧
      arrayAt (m.getSlot alloc i create depth head).2.slots head (slotPath depth i) = some c.1 ∧
      c.2 = slotIndex 0 i := by
  have hgot := h.getSlot_head halloc i create
  obtain ⟨a, ha, rfl⟩ := hgot.exists_array hc
  exact ⟨hgot.grows.tree.mem _ a (Nat.le_of_eq (length_slotPath depth i)) ha, ha, rfl⟩

/-- **The slots of a table**, wherever the allocator puts the arrays. The
tree has an entry for every index below the expected size. After any calls
the arrays in memory are the tree that these calls make, and every slot
can be created; an entry that is returned is the slot's own in an array of
the tree, entries that are returned at any two times are the same exactly
for the same slot, one that was returned is returned ever after, and to
create one changes the content of none. -/
theorem slots_distinct_and_kept (halloc : ∀ used, alloc used ∉ used)
    (slots : ℕ → Fin slotIndexNr → Option ℕ) (e : ℕ) :
    e ≤ slotIndexNr ^ calcLevelNr e ∧
    ∀ head m₀ depth, start alloc slots = (head, m₀) → depth = calcLevelNr e - 1 →
      ∀ calls m, m₀.run alloc depth head calls = m →
        m.tree head depth = calls.foldl SlotTree.call (SlotTree.new depth) ∧
        (∀ i, (m.getSlot alloc i true depth head).1.isSome) ∧
        (∀ i create c, (m.getSlot alloc i create depth head).1 = some c →
          c.1 ∈ (m.getSlot alloc i create depth head).2.arrays ∧
            arrayAt (m.getSlot alloc i create depth head).2.slots head (slotPath depth i) =
              some c.1 ∧ c.2 = slotIndex 0 i) ∧
        (∀ i j create create' calls' c c', i < slotIndexNr ^ calcLevelNr e →
          j < slotIndexNr ^ calcLevelNr e → (m.getSlot alloc i create depth head).1 = some c →
          (((m.call alloc depth head (.get i create)).run alloc depth head calls').getSlot alloc j
            create' depth head).1 = some c' → (c = c' ↔ i = j)) ∧
        (∀ i create create' calls' c, (m.getSlot alloc i create depth head).1 = some c →
          (((m.call alloc depth head (.get i create)).run alloc depth head calls').getSlot alloc i
            create' depth head).1 = some c) ∧
        ∀ i j create c, (m.getSlot alloc j false depth head).1 = some c →
          (m.getSlot alloc i create depth head).2.load c = m.load c := by
  rw [slotIndexNr_pow_calcLevelNr]
  refine ⟨le_pow_calcLevelNr e, fun head m₀ depth hstart hdepth calls m hrun => ?_⟩
  rw [← hdepth]
  have hstart' : m₀.IsTree head depth := by
    have htree := isTree_start alloc slots depth
    rwa [hstart] at htree
  have hmemory := tree_run halloc slots depth calls
  rw [hstart, hrun] at hmemory
  have htree : m.IsTree head depth := hrun ▸ (hstart'.run halloc calls).tree
  refine ⟨hmemory, fun i => ?_, fun i create c hc => htree.getSlot_mem halloc hc,
    fun i j create create' calls' c c' hi hj hc hc' => ?_,
    fun i create create' calls' c hc => htree.getSlot_again halloc create' calls' hc,
    fun i j create c hc => htree.load_getSlot halloc i create hc⟩
  · have hgot := htree.getSlot_head halloc i true
    rw [hgot.ptr, Option.isSome_map]
    exact hgot.exists_of_create rfl
  · exact htree.getSlot_later halloc calls' hc hc' hi hj

/-- Each array behind all others. -/
def bump (used : List ℕ) : ℕ := used.sum + 1

theorem bump_notMem (used : List ℕ) : bump used ∉ used := fun hmem =>
  Nat.lt_irrefl _ (List.le_sum_of_mem hmem)

/-- Two slots of a table of two levels, in arrays of their own. -/
theorem slots_distinct_and_kept_bump : ∃ m₀ c c', start bump (fun _ _ => some 7) = (1, m₀) ∧
    (m₀.getSlot bump 0 true 1 1).1 = some c ∧ c.1 ∈ (m₀.getSlot bump 0 true 1 1).2.arrays ∧
    ((m₀.call bump 1 1 (.get 0 true)).getSlot bump 599 true 1 1).1 = some c' ∧ c ≠ c' := by
  obtain ⟨-, hall⟩ := slots_distinct_and_kept bump_notMem (fun _ _ => some 7) 600
  obtain ⟨-, -, hcell, hdistinct, -⟩ := hall 1 _ 1 rfl (by decide) [] _ rfl
  refine ⟨_, (2, slotIndex 0 0), (4, slotIndex 0 599), rfl, rfl, (hcell 0 true _ rfl).1, rfl,
    fun heq => ?_⟩
  have hsame := (hdistinct 0 599 true true [] _ _ (by decide) (by decide) rfl rfl).1 heq
  exact absurd hsame (by decide)

end SlotMemory

end Concurrent

end CppEtudes
