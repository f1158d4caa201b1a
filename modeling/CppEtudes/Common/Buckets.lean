import CppEtudes.Common.Chains
import CppEtudes.Common.Links

/-!
# A table of chains in memory

The chains of a table as they lie in memory: an array of heads, and a
link in each node. A pointer to a node is kept in a place, which is a
head or the link of a node. To write one place is to replace what its
chain has behind it.

An element stands for the node at its address; the nodes of all chains
are distinct.
-/

namespace CppEtudes

/-- The heads of the chains, and the links of the nodes. -/
structure Buckets (α : Type) where
  heads : List (Option α)
  next : α → Option α

namespace Buckets

open Links

variable {α β : Type}

/-- What holds a pointer to a node. -/
inductive Place (α : Type)
  | head (i : ℕ)
  | next (a : α)

/-- The place behind `p` in the chain `i`. -/
def place (i : ℕ) : Option α → Place α
  | none => .head i
  | some a => .next a

/-- The pointer at a place; there is none beyond the array. -/
def read (b : Buckets α) : Place α → Option (Option α)
  | .head i => b.heads[i]?
  | .next a => some (b.next a)

def write [DecidableEq α] (b : Buckets α) : Place α → Option α → Buckets α
  | .head i, v => { b with heads := b.heads.set i v }
  | .next a, v => { b with next := Function.update b.next a v }

/-- The links met from the pointer `head` on. -/
def linksFrom (head : Option α) (next : α → Option α) : Option α → Option α
  | none => head
  | some a => next a

/-- The links of the chain `i`. -/
def links (b : Buckets α) (i : ℕ) : Option α → Option α := linksFrom (b.heads.getD i none) b.next

/-- **The chains of a table.** -/
structure Holds (addr : β → α) (b : Buckets α) (chains : Chains β) : Prop where
  length : b.heads.length = chains.length
  chain : ∀ i, Chain (b.links i) none ((chains.getD i []).map addr)
  nodup : (chains.flatten.map addr).Nodup

variable {addr : β → α} {b b' : Buckets α} {chains : Chains β} {i j : ℕ} {p q v : Option α}
variable {c l₁ l₂ l₃ mid tail : List β} {f : List β → List β} {x y : β}

theorem read_place (hi : i < b.heads.length) (p : Option α) :
    b.read (place i p) = some (b.links i p) := by
  rcases p with - | a
  · exact (List.getElem?_eq_getElem hi).trans (congrArg some (List.getD_eq_getElem _ _ hi).symm)
  · rfl

theorem chain_linksFrom_cons {head : Option α} {next : α → Option α} {a : α} {l : List α} :
    Chain (linksFrom head next) none (a :: l) ↔
      head = some a ∧ Chain (linksFrom (next a) next) none l :=
  and_congr_right fun _ => ⟨fun h => h.retarget h.next_eq fun _ _ => rfl,
    fun h => h.retarget h.next_eq fun _ _ => rfl⟩

/-! ## Writing a place -/

section Write

variable [DecidableEq α]

@[simp] theorem length_heads_write (b : Buckets α) (r : Place α) (v : Option α) :
    (b.write r v).heads.length = b.heads.length := by
  rcases r with i | a
  · exact List.length_set
  · rfl

theorem links_write (hi : i < b.heads.length) :
    (b.write (place i p) v).links i = Function.update (b.links i) p v := by
  funext q
  rcases p with - | a
  · rcases q with - | d
    · rw [Function.update_self]
      exact (List.getD_eq_getElem _ _ (by simpa using hi)).trans (List.getElem_set_self _)
    · exact (Function.update_of_ne (Option.some_ne_none d) _ _).symm
  · rcases q with - | d
    · exact (Function.update_of_ne (Option.some_ne_none a).symm _ _).symm
    · rcases eq_or_ne d a with rfl | hne
      · rw [Function.update_self]
        exact Function.update_self ..
      · rw [Function.update_of_ne (fun heq => hne (Option.some.inj heq))]
        exact Function.update_of_ne hne _ _

/-- The other chains have that link only if it is the one of a node. -/
theorem links_write_of_ne (hij : j ≠ i) (hq : q = none ∨ q ≠ p) :
    (b.write (place i p) v).links j q = b.links j q := by
  rcases p with - | a
  · rcases q with - | d
    · show (b.heads.set i v).getD j none = b.heads.getD j none
      rw [List.getD_eq_getElem?_getD, List.getElem?_set_ne hij.symm, ← List.getD_eq_getElem?_getD]
    · rfl
  · rcases q with - | d
    · rfl
    · refine Function.update_of_ne (fun heq => ?_) _ _
      rcases hq with hq | hq
      · exact Option.some_ne_none d hq
      · exact hq (congrArg some heq)

end Write

/-! ## Distinct nodes -/

section Nodup

variable (hnd : (chains.flatten.map addr).Nodup)
include hnd

theorem nodup_getD (i : ℕ) : ((chains.getD i []).map addr).Nodup := by
  rw [List.map_flatten, List.nodup_flatten] at hnd
  rcases Nat.lt_or_ge i chains.length with hi | hi
  · rw [List.getD_eq_getElem _ _ hi]
    exact hnd.1 _ (List.mem_map_of_mem (List.getElem_mem hi))
  · rw [List.getD_eq_default _ _ hi]
    exact List.nodup_nil

/-- Two chains share no node. -/
theorem addr_ne (hij : i ≠ j) (hx : x ∈ chains.getD i []) (hy : y ∈ chains.getD j []) :
    addr x ≠ addr y := by
  rw [List.map_flatten, List.nodup_flatten] at hnd
  have hlt {i : ℕ} {x : β} (hx : x ∈ chains.getD i []) : i < chains.length := by
    refine Nat.lt_of_not_le fun hle => ?_
    rw [List.getD_eq_default _ _ hle] at hx
    exact List.not_mem_nil hx
  have hdisj {i j : ℕ} {x y : β} (hlt' : i < j) (hx : x ∈ chains.getD i [])
      (hy : y ∈ chains.getD j []) : addr x ≠ addr y := by
    have hpair := List.pairwise_iff_getElem.1 hnd.2 i j (by simpa using hlt hx)
      (by simpa using hlt hy) hlt'
    rw [List.getElem_map, List.getElem_map, ← List.getD_eq_getElem _ [],
      ← List.getD_eq_getElem _ []] at hpair
    exact fun heq => hpair (List.mem_map_of_mem hx) (heq ▸ List.mem_map_of_mem hy)
  rcases Nat.lt_or_gt_of_ne hij with hlt' | hlt'
  · exact hdisj hlt' hx hy
  · exact (hdisj hlt' hy hx).symm

/-- The place where a part of a chain ends is behind none of the others. -/
theorem ne_last (hc : chains.getD i [] = l₁ ++ l₂) (hij : j ≠ i)
    (hq : q ∈ none :: ((chains.getD j []).map addr).map some) :
    q = none ∨ q ≠ last none (l₁.map addr) := by
  rcases List.mem_cons.1 hq with hq | hq
  · exact .inl hq
  obtain ⟨a, ha, rfl⟩ := List.mem_map.1 hq
  obtain ⟨y, hy, rfl⟩ := List.mem_map.1 ha
  refine .inr fun heq => ?_
  have hmem : some (addr y) ∈ none :: (l₁.map addr).map some := heq ▸ last_mem
  rcases List.mem_cons.1 hmem with hnone | hmem
  · exact Option.some_ne_none _ hnone
  · obtain ⟨a, ha, heq⟩ := List.mem_map.1 hmem
    obtain ⟨x, hx, rfl⟩ := List.mem_map.1 ha
    exact addr_ne hnd hij hy (hc ▸ List.mem_append_left _ hx) (Option.some.inj heq.symm)

end Nodup

/-- The place where the first part of a chain ends is not behind a node of
the second. -/
theorem last_ne_of_nodup (hnd : ((l₁ ++ l₂).map addr).Nodup) (hx : x ∈ l₂) :
    some (addr x) ≠ last none (l₁.map addr) := by
  intro heq
  have hmem : some (addr x) ∈ none :: (l₁.map addr).map some := heq ▸ last_mem
  rw [List.map_append] at hnd
  rcases List.mem_cons.1 hmem with hnone | hmem
  · exact Option.some_ne_none _ hnone
  · obtain ⟨a, ha, heq⟩ := List.mem_map.1 hmem
    exact (List.nodup_append.1 hnd).2.2 a ha _ (List.mem_map_of_mem hx) (Option.some.inj heq)

namespace Holds

/-- **What stands behind a place is replaced**: the links before it and
those of the other chains stay. -/
theorem splice (h : b.Holds addr chains) (hi : i < chains.length)
    (hc : chains.getD i [] = l₁ ++ l₂) (hf : f (l₁ ++ l₂) = l₁ ++ l₃)
    (hlen : b'.heads.length = b.heads.length)
    (hchain : Chain (b'.links i) (last none (l₁.map addr)) (l₃.map addr))
    (hsame : ∀ q ∈ none :: (l₁.map addr).map some, q ≠ last none (l₁.map addr) →
      b'.links i q = b.links i q)
    (hother : ∀ j, j ≠ i → ∀ q ∈ none :: ((chains.getD j []).map addr).map some,
      b'.links j q = b.links j q)
    (hnd : ((chains.modify i f).flatten.map addr).Nodup) : b'.Holds addr (chains.modify i f) := by
  refine ⟨by rw [hlen, h.length, List.length_modify], fun j => ?_, hnd⟩
  rw [Chains.getD_modify hi]
  split_ifs with hij
  · subst j
    have hold := h.chain i
    have hnodup := nodup_getD h.nodup i
    rw [hc, List.map_append] at hold hnodup
    rw [hc, hf, List.map_append]
    exact hold.replace (Chain.nodup_places (List.nodup_append.1 hnodup).1
      fun _ _ => (Option.some_ne_none _).symm) hsame hchain
  · exact (h.chain j).congr (hother j (Ne.symm hij))

/-- The links behind a part of a chain. -/
theorem chain_drop (h : b.Holds addr chains) (hc : chains.getD i [] = l₁ ++ l₂) :
    Chain (b.links i) (last none (l₁.map addr)) (l₂.map addr) := by
  have hold := h.chain i
  rw [hc, List.map_append] at hold
  exact hold.drop

variable [DecidableEq α]

/-- **The nodes `mid` are cut out** by the place before them. -/
theorem cut (h : b.Holds addr chains) (hi : i < chains.length)
    (hc : chains.getD i [] = l₁ ++ (mid ++ tail)) (hf : f (l₁ ++ (mid ++ tail)) = l₁ ++ tail)
    (hnd : ((chains.modify i f).flatten.map addr).Nodup) :
    (b.write (place i (last none (l₁.map addr))) (tail.head?.map addr)).Holds addr
      (chains.modify i f) := by
  have hi' : i < b.heads.length := h.length ▸ hi
  have hnodup := nodup_getD h.nodup i
  rw [hc] at hnodup
  refine h.splice hi hc hf (length_heads_write ..) ?_ (fun q _ hq => ?_) (fun j hij q hq => ?_) hnd
  · rw [links_write hi']
    have htail := h.chain_drop (hc.trans (List.append_assoc ..).symm)
    refine htail.retarget ?_ fun a ha => ?_
    · rw [Function.update_self, List.head?_map]
    · obtain ⟨x, hx, rfl⟩ := List.mem_map.1 ha
      exact Function.update_of_ne (last_ne_of_nodup hnodup (List.mem_append_right _ hx)) _ _
  · rw [links_write hi', Function.update_of_ne hq]
  · exact links_write_of_ne hij (ne_last h.nodup hc hij hq)

/-- **A node takes the place of the nodes `mid`**: its link is written
first, and then the place before it. -/
theorem put (h : b.Holds addr chains) (hi : i < chains.length)
    (hc : chains.getD i [] = l₁ ++ (mid ++ tail))
    (hf : f (l₁ ++ (mid ++ tail)) = l₁ ++ x :: tail)
    (hnd : ((chains.modify i f).flatten.map addr).Nodup) :
    ((b.write (.next (addr x)) (tail.head?.map addr)).write (place i (last none (l₁.map addr)))
      (some (addr x))).Holds addr (chains.modify i f) := by
  have hi' : i < (b.write (.next (addr x)) (tail.head?.map addr)).heads.length := h.length ▸ hi
  have hnodup := nodup_getD h.nodup i
  rw [hc] at hnodup
  -- the node is new to its own chain and to the others
  have hnew : (chains.modify i f).getD i [] = l₁ ++ x :: tail := by
    rw [Chains.getD_modify hi, if_pos rfl, hc, hf]
  have hnodup' := nodup_getD hnd i
  rw [hnew] at hnodup'
  refine h.splice hi hc hf (length_heads_write ..) ?_ (fun q hq hne => ?_) (fun j hij q hq => ?_) hnd
  · rw [links_write hi']
    refine ⟨Function.update_self .., ?_⟩
    have htail := h.chain_drop (hc.trans (List.append_assoc ..).symm)
    refine htail.retarget ?_ fun a ha => ?_
    · rw [Function.update_of_ne (last_ne_of_nodup hnodup' List.mem_cons_self), List.head?_map]
      exact Function.update_self ..
    · obtain ⟨y, hy, rfl⟩ := List.mem_map.1 ha
      rw [Function.update_of_ne (last_ne_of_nodup hnodup (List.mem_append_right _ hy))]
      rw [List.map_append, List.map_cons] at hnodup'
      refine Function.update_of_ne (fun heq => ?_) _ _
      exact (List.nodup_cons.1 (List.nodup_append.1 hnodup').2.1).1 (heq ▸ ha)
  · rw [links_write hi', Function.update_of_ne hne]
    rcases q with - | a
    · rfl
    · refine Function.update_of_ne (fun heq => ?_) _ _
      obtain ⟨a', ha', heq'⟩ := List.mem_map.1 ((List.mem_cons.1 hq).resolve_left
        (Option.some_ne_none _))
      rw [List.map_append] at hnodup'
      exact (List.nodup_append.1 hnodup').2.2 a' ha' (addr x) List.mem_cons_self
        ((Option.some.inj heq').trans heq)
  · rw [links_write_of_ne hij (ne_last h.nodup hc hij hq)]
    rcases q with - | a
    · rfl
    · refine Function.update_of_ne (fun heq => ?_) _ _
      obtain ⟨a', ha', heq'⟩ := List.mem_map.1 ((List.mem_cons.1 hq).resolve_left
        (Option.some_ne_none _))
      obtain ⟨y, hy, rfl⟩ := List.mem_map.1 ha'
      refine addr_ne hnd hij (x := y) (y := x) ?_ ?_ ((Option.some.inj heq').trans heq)
      · rwa [Chains.getD_modify hi, if_neg (Ne.symm hij)]
      · rw [hnew]
        exact List.mem_append_right _ List.mem_cons_self

end Holds

end Buckets

end CppEtudes
