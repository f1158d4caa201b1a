import Mathlib.Data.List.GetD
import Mathlib.Data.List.Nodup
import Mathlib.Data.List.Perm.Basic

/-!
# Tables of chains

A hash table is a list of chains; an element belongs to the chain that
its key is sent to. An insertion replaces the element of the same key
where it stands or goes to the end of the chain, and a rehash pushes the
elements one by one in front of the chains of an empty table.

What the operations leave is said up to a permutation of the elements,
from which membership, the number of elements and that no two share a
key can all be read off.
-/

namespace CppEtudes

/-- The key of an element, and the chain of a key among `n`. -/
structure Hashing (α κ : Type) where
  key : α → κ
  home : ℕ → κ → ℕ
  home_lt : ∀ {n : ℕ} {k : κ}, 0 < n → home n k < n

/-- The chains of a table, in the order of their slots. -/
abbrev Chains (α : Type) := List (List α)

namespace Chains

variable {α κ : Type} (H : Hashing α κ)

/-- The first element of the key in its chain. -/
def lookup [DecidableEq κ] (t : Chains α) (k : κ) : Option α :=
  (t.getD (H.home t.length k) []).find? fun x => H.key x = k

/-- A chain in which `x` takes the place of the element with its key, or
the place after the last one. -/
def replace [DecidableEq κ] (x : α) : List α → List α
  | [] => [x]
  | y :: ys => if H.key y = H.key x then x :: ys else y :: replace x ys

def insert [DecidableEq κ] (t : Chains α) (x : α) : Chains α :=
  t.modify (H.home t.length (H.key x)) (replace H x)

def erase [DecidableEq κ] (t : Chains α) (k : κ) : Chains α :=
  t.modify (H.home t.length k) fun c => c.eraseP fun x => H.key x = k

/-- `x` in front of its chain. -/
def push (t : Chains α) (x : α) : Chains α :=
  t.modify (H.home t.length (H.key x)) (x :: ·)

/-- The elements moved one by one to `n` empty chains. -/
def rehash (n : ℕ) (t : Chains α) : Chains α := t.flatten.foldl (push H) (List.replicate n [])

/-- **A table in order**: there are chains, each element stands in the
chain of its key, and no two elements share a key. -/
structure Valid (t : Chains α) : Prop where
  pos : 0 < t.length
  homed : ∀ i, ∀ x ∈ t.getD i [], H.home t.length (H.key x) = i
  keys : (t.flatten.map H.key).Nodup

/-! ## One chain changes -/

theorem mem_flatten_iff {t : Chains α} {x : α} : x ∈ t.flatten ↔ ∃ i, x ∈ t.getD i [] := by
  rw [List.mem_flatten]
  constructor
  · rintro ⟨c, hc, hx⟩
    obtain ⟨i, hi, rfl⟩ := List.getElem_of_mem hc
    exact ⟨i, by rw [List.getD_eq_getElem _ _ hi]; exact hx⟩
  · rintro ⟨i, hx⟩
    rcases Nat.lt_or_ge i t.length with hi | hi
    · rw [List.getD_eq_getElem _ _ hi] at hx
      exact ⟨t[i], List.getElem_mem hi, hx⟩
    · rw [List.getD_eq_default _ _ hi] at hx
      exact absurd hx List.not_mem_nil

theorem getD_modify {t : Chains α} {i : ℕ} (hi : i < t.length) (f : List α → List α) (j : ℕ) :
    (t.modify i f).getD j [] = if i = j then f (t.getD i []) else t.getD j [] := by
  rw [List.getD_eq_getElem?_getD, List.getElem?_modify]
  split
  · subst j
    simp [List.getElem?_eq_getElem hi]
  · simp [List.getD_eq_getElem?_getD]

/-- **One chain and the rest.** -/
theorem exists_rest {t : Chains α} {i : ℕ} (hi : i < t.length) :
    ∃ rest, t.flatten.Perm (t.getD i [] ++ rest) ∧
      ∀ f : List α → List α, (t.modify i f).flatten.Perm (f (t.getD i []) ++ rest) := by
  induction t generalizing i with
  | nil => exact absurd hi (Nat.not_lt_zero _)
  | cons c cs ih =>
    rcases i with - | i
    · exact ⟨cs.flatten, by simp, fun f => by simp⟩
    · obtain ⟨rest, h, hf⟩ := ih (Nat.lt_of_succ_lt_succ hi)
      -- the first chain is carried over the chain that changes
      have hcarry {l m : List α} (hl : l.Perm (m ++ rest)) : (c ++ l).Perm (m ++ (c ++ rest)) :=
        (hl.append_left c).trans (by
          rw [← List.append_assoc, ← List.append_assoc]
          exact List.perm_append_comm.append_right rest)
      exact ⟨c ++ rest, by simpa using hcarry h, fun f => by simpa using hcarry (hf f)⟩

/-- A change of one chain that keeps to the elements of that chain. -/
theorem homed_modify {t : Chains α} {i : ℕ} {f : List α → List α} (hi : i < t.length)
    (h : ∀ j, ∀ x ∈ t.getD j [], H.home t.length (H.key x) = j)
    (hf : ∀ x ∈ f (t.getD i []), H.home t.length (H.key x) = i) :
    ∀ j, ∀ x ∈ (t.modify i f).getD j [], H.home (t.modify i f).length (H.key x) = j := by
  intro j x hx
  rw [List.length_modify]
  rw [getD_modify hi] at hx
  split at hx
  · rename_i hij
    exact hij ▸ hf x hx
  · exact h j x hx

/-! ## Rehashing -/

variable {H} {t : Chains α} {k : κ} {x y : α}

theorem Valid.eq_of_key (h : Valid H t) (hx : x ∈ t.flatten) (hy : y ∈ t.flatten)
    (hk : H.key x = H.key y) : x = y :=
  List.inj_on_of_nodup_map h.keys hx hy hk

@[simp] theorem length_push : (push H t x).length = t.length := List.length_modify ..

theorem push_perm (hpos : 0 < t.length) : (push H t x).flatten.Perm (x :: t.flatten) := by
  obtain ⟨rest, ht, hf⟩ := exists_rest (t := t) (H.home_lt (k := H.key x) hpos)
  exact (hf (x :: ·)).trans (ht.symm.cons x)

theorem foldl_push_perm (l : List α) (hpos : 0 < t.length) :
    (l.foldl (push H) t).flatten.Perm (l ++ t.flatten) := by
  induction l generalizing t with
  | nil => exact List.Perm.refl _
  | cons x xs ih =>
    refine (ih (t := push H t x) (by rw [length_push]; exact hpos)).trans ?_
    exact ((push_perm hpos).append_left xs).trans List.perm_middle

theorem length_foldl_push (l : List α) : (l.foldl (push H) t).length = t.length := by
  induction l generalizing t with
  | nil => rfl
  | cons x xs ih => rw [List.foldl_cons, ih, length_push]

theorem homed_foldl_push (l : List α) (hpos : 0 < t.length)
    (h : ∀ j, ∀ x ∈ t.getD j [], H.home t.length (H.key x) = j) :
    ∀ j, ∀ x ∈ (l.foldl (push H) t).getD j [],
      H.home (l.foldl (push H) t).length (H.key x) = j := by
  induction l generalizing t with
  | nil => exact h
  | cons x xs ih =>
    refine ih (t := push H t x) (by rw [length_push]; exact hpos) ?_
    refine homed_modify H (H.home_lt hpos) h fun z hz => ?_
    rcases List.mem_cons.1 hz with rfl | hz
    · rfl
    · exact h _ z hz

@[simp] theorem length_rehash (n : ℕ) : (rehash H n t).length = n := by
  rw [rehash, length_foldl_push, List.length_replicate]

/-- A rehash keeps the elements. -/
theorem rehash_perm {n : ℕ} (hn : 0 < n) : (rehash H n t).flatten.Perm t.flatten := by
  have hperm := foldl_push_perm (H := H) (t := List.replicate n []) t.flatten
    (by rw [List.length_replicate]; exact hn)
  simpa [rehash] using hperm

/-- **A rehash leaves the table in order.** -/
theorem Valid.rehash {n : ℕ} (h : Valid H t) (hn : 0 < n) : Valid H (rehash H n t) := by
  refine ⟨by rw [length_rehash]; exact hn, ?_, ?_⟩
  · refine homed_foldl_push t.flatten (by rw [List.length_replicate]; exact hn) fun j x hx => ?_
    rw [List.getD_eq_getElem?_getD, List.getElem?_getD_replicate_default_eq] at hx
    exact absurd hx List.not_mem_nil
  · rw [((rehash_perm hn).map H.key).nodup_iff]
    exact h.keys

/-! ## Lookup -/

variable [DecidableEq κ]

/-- **A lookup finds the element of the key.** -/
theorem Valid.lookup_eq_some_iff (h : Valid H t) :
    lookup H t k = some x ↔ x ∈ t.flatten ∧ H.key x = k := by
  constructor
  · intro hx
    have hk : H.key x = k := by simpa using List.find?_some hx
    exact ⟨mem_flatten_iff.2 ⟨_, List.mem_of_find?_eq_some hx⟩, hk⟩
  · rintro ⟨hx, rfl⟩
    obtain ⟨i, hi⟩ := mem_flatten_iff.1 hx
    obtain rfl := h.homed i x hi
    have hsome : (lookup H t (H.key x)).isSome :=
      List.find?_isSome.2 ⟨x, hi, by simp⟩
    obtain ⟨y, hy⟩ := Option.isSome_iff_exists.1 hsome
    have hky : H.key y = H.key x := by simpa using List.find?_some hy
    rw [hy, h.eq_of_key (mem_flatten_iff.2 ⟨_, List.mem_of_find?_eq_some hy⟩) hx hky]

theorem Valid.lookup_eq_none_iff (h : Valid H t) :
    lookup H t k = none ↔ ∀ x ∈ t.flatten, H.key x ≠ k := by
  rw [Option.eq_none_iff_forall_ne_some]
  constructor
  · intro hn x hx hk
    exact hn x (h.lookup_eq_some_iff.2 ⟨hx, hk⟩)
  · intro hn x hx
    obtain ⟨hmem, hk⟩ := h.lookup_eq_some_iff.1 hx
    exact hn x hmem hk

/-! ## Insertion -/

theorem replace_of_none {c : List α} (h : c.find? (fun y => H.key y = H.key x) = none) :
    replace H x c = c ++ [x] := by
  induction c with
  | nil => rfl
  | cons y ys ih =>
    rw [List.find?_cons] at h
    by_cases hy : H.key y = H.key x
    · simp [hy] at h
    · simp only [hy, decide_false] at h
      rw [replace, if_neg hy, ih h, List.cons_append]

theorem replace_append {l r : List α} (hl : ∀ z ∈ l, H.key z ≠ H.key x)
    (hy : H.key y = H.key x) : replace H x (l ++ y :: r) = l ++ x :: r := by
  induction l with
  | nil => simp [replace, hy]
  | cons z zs ih =>
    rw [List.cons_append, replace, if_neg (hl z List.mem_cons_self),
      ih fun w hw => hl w (List.mem_cons_of_mem _ hw), List.cons_append]

theorem mem_replace {c : List α} {z : α} (h : z ∈ replace H x c) : z = x ∨ z ∈ c := by
  induction c with
  | nil => exact Or.inl (List.mem_singleton.1 h)
  | cons y ys ih =>
    rw [replace] at h
    split at h
    · rcases List.mem_cons.1 h with rfl | h
      · exact Or.inl rfl
      · exact Or.inr (List.mem_cons_of_mem _ h)
    · rcases List.mem_cons.1 h with rfl | h
      · exact Or.inr List.mem_cons_self
      · exact (ih h).imp_right (List.mem_cons_of_mem _)

@[simp] theorem length_insert : (insert H t x).length = t.length := List.length_modify ..

@[simp] theorem length_erase : (erase H t k).length = t.length := List.length_modify ..

/-- A new key adds the element. -/
theorem Valid.insert_perm_of_none (h : Valid H t) (hx : lookup H t (H.key x) = none) :
    (insert H t x).flatten.Perm (x :: t.flatten) := by
  obtain ⟨rest, ht, hf⟩ := exists_rest (t := t) (H.home_lt (k := H.key x) h.pos)
  have hins : (insert H t x).flatten.Perm _ := hf (replace H x)
  rw [replace_of_none hx] at hins
  refine hins.trans (((List.perm_append_singleton x _).append_right rest).trans ?_)
  exact (ht.symm.cons x)

/-- A key that is there has its element replaced. -/
theorem Valid.insert_perm_of_some (h : Valid H t) (hx : lookup H t (H.key x) = some y) :
    ∃ rest, t.flatten.Perm (y :: rest) ∧ (insert H t x).flatten.Perm (x :: rest) := by
  obtain ⟨rest, ht, hf⟩ := exists_rest (t := t) (H.home_lt (k := H.key x) h.pos)
  obtain ⟨hy, l, r, hc, hl⟩ := List.find?_eq_some_iff_append.1 hx
  have hins : (insert H t x).flatten.Perm _ := hf (replace H x)
  rw [hc, replace_append (by simpa using hl) (by simpa using hy)] at hins
  rw [hc] at ht
  exact ⟨l ++ r ++ rest, ht.trans (List.perm_middle.append_right rest),
    hins.trans (List.perm_middle.append_right rest)⟩

/-- **An insertion leaves the table in order.** -/
theorem Valid.insert (h : Valid H t) : Valid H (insert H t x) := by
  refine ⟨by rw [length_insert]; exact h.pos, ?_, ?_⟩
  · refine homed_modify H (H.home_lt h.pos) h.homed fun z hz => ?_
    rcases mem_replace hz with rfl | hz
    · rfl
    · exact h.homed _ z hz
  · rcases hx : lookup H t (H.key x) with - | y
    · rw [((h.insert_perm_of_none hx).map H.key).nodup_iff, List.map_cons, List.nodup_cons]
      refine ⟨fun hmem => ?_, h.keys⟩
      obtain ⟨z, hz, hk⟩ := List.mem_map.1 hmem
      exact h.lookup_eq_none_iff.1 hx z hz hk
    · obtain ⟨rest, ht, hins⟩ := h.insert_perm_of_some hx
      have hkeys := h.keys
      rw [(ht.map H.key).nodup_iff, List.map_cons] at hkeys
      rw [(hins.map H.key).nodup_iff, List.map_cons]
      rwa [(h.lookup_eq_some_iff.1 hx).2] at hkeys

/-! ## Removal -/

theorem Valid.erase_of_none (h : Valid H t) (hk : lookup H t k = none) :
    (erase H t k).flatten.Perm t.flatten := by
  obtain ⟨rest, ht, hf⟩ := exists_rest (t := t) (H.home_lt (k := k) h.pos)
  have hdel : (erase H t k).flatten.Perm _ := hf fun c => c.eraseP fun x => H.key x = k
  rw [List.eraseP_of_forall_not fun z hz => by simpa using List.find?_eq_none.1 hk z hz] at hdel
  exact hdel.trans ht.symm

theorem Valid.erase_perm_of_some (h : Valid H t) (hx : lookup H t k = some x) :
    t.flatten.Perm (x :: (erase H t k).flatten) := by
  obtain ⟨rest, ht, hf⟩ := exists_rest (t := t) (H.home_lt (k := k) h.pos)
  obtain ⟨hy, l, r, hc, hl⟩ := List.find?_eq_some_iff_append.1 hx
  have hdel : (erase H t k).flatten.Perm _ := hf fun c => c.eraseP fun x => H.key x = k
  rw [hc, List.eraseP_append_right _ (by simpa using hl),
    List.eraseP_cons_of_pos (p := fun z => H.key z = k) hy] at hdel
  rw [hc] at ht
  exact ht.trans ((List.perm_middle.append_right rest).trans (hdel.symm.cons x))

/-- **A removal leaves the table in order.** -/
theorem Valid.erase (h : Valid H t) : Valid H (erase H t k) := by
  refine ⟨by rw [length_erase]; exact h.pos, ?_, ?_⟩
  · exact homed_modify H (H.home_lt h.pos) h.homed fun z hz =>
      h.homed _ z (List.mem_of_mem_eraseP hz)
  · rcases hx : lookup H t k with - | x
    · rw [((h.erase_of_none hx).map H.key).nodup_iff]
      exact h.keys
    · have hkeys := h.keys
      rw [((h.erase_perm_of_some hx).map H.key).nodup_iff, List.map_cons] at hkeys
      exact (List.nodup_cons.1 hkeys).2

/-- What a removal leaves, by membership. -/
theorem Valid.mem_erase_iff (h : Valid H t) :
    y ∈ (Chains.erase H t k).flatten ↔ y ∈ t.flatten ∧ H.key y ≠ k := by
  rcases hx : lookup H t k with - | x
  · rw [(h.erase_of_none hx).mem_iff]
    exact ⟨fun hy => ⟨hy, h.lookup_eq_none_iff.1 hx y hy⟩, fun hy => hy.1⟩
  · have hperm := h.erase_perm_of_some hx
    obtain ⟨hmem, rfl⟩ := h.lookup_eq_some_iff.1 hx
    have hnd := h.keys
    rw [(hperm.map H.key).nodup_iff, List.map_cons, List.nodup_cons] at hnd
    constructor
    · intro hy
      refine ⟨hperm.mem_iff.2 (List.mem_cons_of_mem _ hy), fun hk => hnd.1 ?_⟩
      exact List.mem_map.2 ⟨y, hy, hk⟩
    · rintro ⟨hy, hk⟩
      rcases List.mem_cons.1 (hperm.mem_iff.1 hy) with rfl | hy
      · exact absurd rfl hk
      · exact hy

/-- What an insertion leaves, by membership. -/
theorem Valid.mem_insert_iff (h : Valid H t) :
    y ∈ (Chains.insert H t x).flatten ↔ y = x ∨ y ∈ t.flatten ∧ H.key y ≠ H.key x := by
  rcases hx : lookup H t (H.key x) with - | z
  · rw [(h.insert_perm_of_none hx).mem_iff, List.mem_cons]
    exact or_congr_right ⟨fun hy => ⟨hy, h.lookup_eq_none_iff.1 hx y hy⟩, fun hy => hy.1⟩
  · obtain ⟨rest, ht, hins⟩ := h.insert_perm_of_some hx
    have hkz := (h.lookup_eq_some_iff.1 hx).2
    have hnd := h.keys
    rw [(ht.map H.key).nodup_iff, List.map_cons, List.nodup_cons, hkz] at hnd
    rw [hins.mem_iff, List.mem_cons, ht.mem_iff, List.mem_cons]
    refine or_congr_right ⟨fun hy => ⟨Or.inr hy, fun hk => hnd.1 (hk ▸ List.mem_map_of_mem hy)⟩, ?_⟩
    rintro ⟨rfl | hy, hk⟩
    · exact absurd hkz hk
    · exact hy

end Chains

end CppEtudes
