import CppEtudes.Common.Fuel
import CppEtudes.LruCache.Calls
import CppEtudes.LruCache.Model.Eviction

/-!
# Which entries are evicted

The walk over the linked list does what `_evict_from_lru` does on the list
of the handles (`returns_evictFromLru`): the cursor stays behind the
durable entries it has skipped, and what it unlinks is always the entry
behind it. When the first loop ends with too much usage, only durable
entries are left. The entries evicted are the shortest prefix that makes
room, of the normal ones and then of the durable ones, the oldest first.
-/

namespace CppEtudes

namespace LruCache

open Links

variable {ν : Type} {lc : LinkedCache ν} {c c' : LRUCache ν} {e : LRUHandle ν}
variable {l l₁ l₂ out : List (LRUHandle ν)} {charge : UInt64}

/-! ## The linked list -/

/-- **A cache with its LRU list in memory.** -/
structure Represents (lc : LinkedCache ν) (c : LRUCache ν) : Prop where
  capacity : lc.capacity = c.capacity
  usage : lc.usage = c.usage
  table : lc.table = c.table
  refs : lc.refs = c.refs
  inCache : lc.inCache = c.inCache
  lru : lc.lru.Holds (c.lru.map LRUHandle.addr)
  handle : ∀ e ∈ c.lru, lc.handle e.addr = e

theorem lru_evictOneEntry (hnd : (c.lru.map LRUHandle.addr).Nodup) (hl : c.lru = l₁ ++ e :: l₂) :
    (c.evictOneEntry e).lru = l₁ ++ l₂ := by
  change c.lru.filter (fun x => x.addr ≠ e.addr) = l₁ ++ l₂
  rw [hl, List.map_append, List.map_cons, List.nodup_append, List.nodup_cons] at hnd
  obtain ⟨-, ⟨hnot, -⟩, hdisj⟩ := hnd
  have h₁ : l₁.filter (fun x => x.addr ≠ e.addr) = l₁ := List.filter_eq_self.2 fun x hx =>
    decide_eq_true (hdisj _ (List.mem_map_of_mem hx) _ List.mem_cons_self)
  have h₂ : l₂.filter (fun x => x.addr ≠ e.addr) = l₂ := List.filter_eq_self.2 fun x hx =>
    decide_eq_true fun heq => hnot (heq ▸ List.mem_map_of_mem hx)
  rw [hl, List.filter_append, List.filter_cons_of_neg (by simp), h₁, h₂]

namespace Represents

theorem next_last (h : Represents lc c) (hl : c.lru = l₁ ++ l₂) :
    lc.lru.next (last none (l₁.map LRUHandle.addr)) = some (l₂.map LRUHandle.addr).head? := by
  have hlru := h.lru
  rw [hl, List.map_append] at hlru
  exact hlru.next_last

theorem over_iff (h : Represents lc c) :
    lc.capacity < lc.usage + charge ↔ c.capacity < c.usage + charge := by
  rw [h.capacity, h.usage]

/-- **One entry is evicted.** -/
theorem evictOneEntry (h : Represents lc c) (hl : c.lru = l₁ ++ e :: l₂) :
    ∃ lc', lc.evictOneEntry e.addr = some lc' ∧ Represents lc' (c.evictOneEntry e) := by
  have hlru := h.lru
  rw [hl, List.map_append, List.map_cons] at hlru
  obtain ⟨r, hr, hholds⟩ := hlru.remove
  have hlist := lru_evictOneEntry h.lru.nodup hl
  have he : lc.handle e.addr = e := h.handle e (by rw [hl]; simp)
  have hremove : lc.lruRemove e.addr = some { lc with lru := r } := by
    rw [LinkedCache.lruRemove, hr]
    rfl
  have hevict : lc.evictOneEntry e.addr = some { lc with
      lru := r
      table := (lc.table.remove (lc.handle e.addr).key (lc.handle e.addr).hash).2
      inCache := Function.update lc.inCache e.addr false
      refs := Function.update lc.refs e.addr (lc.refs e.addr - 1)
      usage := lc.usage - (lc.handle e.addr).charge } := by
    rw [LinkedCache.evictOneEntry, hremove]
    rfl
  refine ⟨_, hevict, ⟨h.capacity, ?_, ?_, ?_, ?_, ?_, ?_⟩⟩
  · dsimp only
    rw [he, h.usage]
    rfl
  · dsimp only
    rw [he, h.table]
    rfl
  · dsimp only
    rw [h.refs]
    rfl
  · dsimp only
    rw [h.inCache]
    rfl
  · rw [hlist, List.map_append]
    exact hholds
  · intro x hx
    rw [hlist] at hx
    refine h.handle x ?_
    rw [hl]
    exact List.mem_append.2 ((List.mem_append.1 hx).imp_right (List.mem_cons_of_mem _))

/-- **The first loop**, with the entries that the cursor has skipped. -/
theorem returns_evictNormal (behind : List (LRUHandle ν)) :
    ∀ {kept : List (LRUHandle ν)} {lc : LinkedCache ν} {c : LRUCache ν}, Represents lc c →
      c.lru = kept ++ behind →
      ∃ lc', Represents lc' (LRUCache.evictNormal charge behind c).1 ∧
        Returns (fun fuel => lc.evictNormal charge fuel (last none (kept.map LRUHandle.addr)))
          (lc', (LRUCache.evictNormal charge behind c).2) := by
  induction behind with
  | nil =>
    intro kept lc c h hl
    refine ⟨lc, h, (Returns.const _).succ fun fuel => ?_⟩
    rw [LinkedCache.evictNormal, h.next_last hl]
    split_ifs <;> rfl
  | cons old behind ih =>
    intro kept lc c h hl
    rw [LRUCache.evictNormal]
    have hold : lc.handle old.addr = old := h.handle old (by rw [hl]; simp)
    have hnext : lc.lru.next (last none (kept.map LRUHandle.addr)) = some (some old.addr) :=
      h.next_last hl
    by_cases hover : c.capacity < c.usage + charge
    · have hover' := h.over_iff.2 hover
      rw [if_pos hover]
      by_cases hdurable : old.priority = .durable
      · -- the cursor moves on
        have hl' : c.lru = (kept ++ [old]) ++ behind := by rw [hl, List.append_assoc]; rfl
        obtain ⟨lc', hrep, hreturns⟩ := ih h hl'
        rw [List.map_append, last_append] at hreturns
        rw [if_pos hdurable]
        refine ⟨lc', hrep, hreturns.succ fun fuel => ?_⟩
        rw [LinkedCache.evictNormal, if_pos hover', hnext]
        dsimp only [Option.bind_eq_bind, Option.bind_some]
        rw [hold, if_pos hdurable]
        rfl
      · obtain ⟨lc₁, hevict, hrep₁⟩ := h.evictOneEntry hl
        obtain ⟨lc', hrep, hreturns⟩ := ih hrep₁ (lru_evictOneEntry h.lru.nodup hl)
        rw [if_neg hdurable]
        refine ⟨lc', hrep, (hreturns.map (g := fun r => (r.1, old :: r.2))).succ fun fuel => ?_⟩
        rw [LinkedCache.evictNormal, if_pos hover', hnext]
        dsimp only [Option.bind_eq_bind, Option.bind_some]
        rw [hold, if_neg hdurable, hevict, Option.bind_some, Option.map_eq_bind]
        rfl
    · rw [if_neg hover]
      refine ⟨lc, h, (Returns.const _).succ fun fuel => ?_⟩
      rw [LinkedCache.evictNormal, if_neg (mt h.over_iff.1 hover)]

/-- **The second loop**, where it meets only durable entries. -/
theorem returns_evictDurable (behind : List (LRUHandle ν)) :
    ∀ {lc : LinkedCache ν} {c : LRUCache ν}, Represents lc c → c.lru = behind →
      (c.capacity < c.usage + charge → ∀ e ∈ behind, e.priority = .durable) →
      ∃ lc', Represents lc' (LRUCache.evictDurable charge behind c).1 ∧
        Returns (fun fuel => lc.evictDurable charge fuel)
          (lc', (LRUCache.evictDurable charge behind c).2) := by
  induction behind with
  | nil =>
    intro lc c h hl _
    have hl' : c.lru = [] ++ [] := hl
    have hnext : lc.lru.next none = some none := h.next_last hl'
    refine ⟨lc, h, (Returns.const _).succ fun fuel => ?_⟩
    rw [LinkedCache.evictDurable, hnext]
    split_ifs <;> rfl
  | cons old behind ih =>
    intro lc c h hl hdurable
    rw [LRUCache.evictDurable]
    by_cases hover : c.capacity < c.usage + charge
    · have hold : lc.handle old.addr = old := h.handle old (by rw [hl]; exact List.mem_cons_self)
      have hl' : c.lru = [] ++ old :: behind := hl
      have hnext : lc.lru.next none = some (some old.addr) := h.next_last hl'
      obtain ⟨lc₁, hevict, hrep₁⟩ := h.evictOneEntry hl'
      obtain ⟨lc', hrep, hreturns⟩ := ih hrep₁ (lru_evictOneEntry h.lru.nodup hl')
        fun _ e he => hdurable hover e (List.mem_cons_of_mem _ he)
      rw [if_pos hover]
      refine ⟨lc', hrep, (hreturns.map (g := fun r => (r.1, old :: r.2))).succ fun fuel => ?_⟩
      rw [LinkedCache.evictDurable, if_pos (h.over_iff.2 hover), hnext]
      dsimp only [Option.bind_eq_bind, Option.bind_some]
      rw [hold, if_pos (hdurable hover old List.mem_cons_self), hevict, Option.bind_some,
        Option.map_eq_bind]
      rfl
    · rw [if_neg hover]
      refine ⟨lc, h, (Returns.const _).succ fun fuel => ?_⟩
      rw [LinkedCache.evictDurable, if_neg (mt h.over_iff.1 hover)]

end Represents

/-! ## The shortest prefix that makes room -/

/-- What some entries are charged. -/
def chargeSum (l : List (LRUHandle ν)) : ℕ := (l.map fun e => e.charge.toNat).sum

/-- The entries that are removed one by one while there is more than
`capacity`. -/
def shortest (capacity : ℕ) : ℕ → List (LRUHandle ν) → List (LRUHandle ν)
  | _, [] => []
  | total, e :: l =>
    if capacity < total then e :: shortest capacity (total - e.charge.toNat) l else []

variable {capacity total : ℕ}

theorem chargeSum_cons (e : LRUHandle ν) (l : List (LRUHandle ν)) :
    chargeSum (e :: l) = e.charge.toNat + chargeSum l := List.sum_cons

theorem chargeSum_append (l₁ l₂ : List (LRUHandle ν)) :
    chargeSum (l₁ ++ l₂) = chargeSum l₁ + chargeSum l₂ := by
  rw [chargeSum, List.map_append, List.sum_append]
  rfl

theorem shortest_of_le (h : total ≤ capacity) (l : List (LRUHandle ν)) :
    shortest capacity total l = [] := by
  rcases l with - | ⟨e, l⟩
  · rfl
  · exact if_neg (Nat.not_lt.2 h)

/-- **The shortest prefix of two lists**, one behind the other. -/
theorem shortest_append (l₁ l₂ : List (LRUHandle ν)) : shortest capacity total (l₁ ++ l₂) =
    shortest capacity total l₁ ++
      shortest capacity (total - chargeSum (shortest capacity total l₁)) l₂ := by
  induction l₁ generalizing total with
  | nil => rfl
  | cons e l₁ ih =>
    rw [List.cons_append, shortest, shortest]
    split_ifs with h
    · rw [ih, chargeSum_cons, Nat.sub_sub, List.cons_append]
    · rw [shortest_of_le (Nat.le_trans (Nat.sub_le ..) (Nat.not_lt.1 h)), List.nil_append]

/-- It is a prefix, no shorter one makes room, and it does if any does. -/
theorem shortest_spec (capacity total : ℕ) (l : List (LRUHandle ν)) :
    ∃ k, shortest capacity total l = l.take k ∧
      (∀ j < k, capacity + chargeSum (l.take j) < total) ∧
      (total ≤ capacity + chargeSum (l.take k) ∨ l.take k = l) := by
  induction l generalizing total with
  | nil => exact ⟨0, rfl, fun _ h => absurd h (Nat.not_lt_zero _), .inr rfl⟩
  | cons e l ih =>
    rw [shortest]
    split_ifs with h
    · obtain ⟨k, htake, hbefore, hlast⟩ := ih (total - e.charge.toNat)
      refine ⟨k + 1, by rw [htake, List.take_succ_cons], fun j hj => ?_, ?_⟩
      · rcases j with - | j
        · exact h
        · have := hbefore j (Nat.lt_of_succ_lt_succ hj)
          rw [List.take_succ_cons, chargeSum_cons]
          omega
      · rw [List.take_succ_cons, chargeSum_cons]
        rcases hlast with hroom | hall
        · exact .inl (by omega)
        · exact .inr (by rw [hall])
    · exact ⟨0, rfl, fun _ h => absurd h (Nat.not_lt_zero _), .inl (Nat.not_lt.1 h)⟩

/-! ## The loops on the list -/

/-- The usage without overflow, before and behind the entries evicted. -/
structure Room (c : LRUCache ν) (l : List (LRUHandle ν)) (charge : UInt64) : Prop where
  sum : chargeSum (shortest c.capacity.toNat (c.usage.toNat + charge.toNat) l) ≤ c.usage.toNat
  lt : c.usage.toNat + charge.toNat < 2 ^ 64

namespace Room

theorem over_iff (h : Room c l charge) : c.capacity < c.usage + charge ↔
    c.capacity.toNat < c.usage.toNat + charge.toNat := by
  rw [UInt64.lt_iff_toNat_lt, UInt64.toNat_add, Nat.mod_eq_of_lt h.lt]

theorem left (h : Room c (l₁ ++ l₂) charge) : Room c l₁ charge := by
  refine ⟨Nat.le_trans ?_ h.sum, h.lt⟩
  rw [shortest_append, chargeSum_append]
  exact Nat.le_add_right ..

theorem usage_evictOneEntry (h : Room c (e :: l) charge) (hover : c.capacity < c.usage + charge) :
    (c.evictOneEntry e).usage.toNat + e.charge.toNat = c.usage.toNat := by
  have hsum := h.sum
  rw [shortest, if_pos (h.over_iff.1 hover), chargeSum_cons] at hsum
  have hle : e.charge ≤ c.usage := UInt64.le_iff_toNat_le.2 (by omega)
  change (c.usage - e.charge).toNat + e.charge.toNat = c.usage.toNat
  rw [UInt64.toNat_sub_of_le _ _ hle]
  omega

/-- What is evicted goes on from the next entry. -/
theorem shortest_cons (h : Room c (e :: l) charge) (hover : c.capacity < c.usage + charge) :
    shortest c.capacity.toNat (c.usage.toNat + charge.toNat) (e :: l) =
      e :: shortest (c.evictOneEntry e).capacity.toNat
        ((c.evictOneEntry e).usage.toNat + charge.toNat) l := by
  have husage := h.usage_evictOneEntry hover
  rw [shortest, if_pos (h.over_iff.1 hover)]
  congr 2
  omega

theorem evictOneEntry (h : Room c (e :: l) charge) (hover : c.capacity < c.usage + charge) :
    Room (c.evictOneEntry e) l charge := by
  have husage := h.usage_evictOneEntry hover
  have hsum := h.sum
  have hlt := h.lt
  rw [h.shortest_cons hover, chargeSum_cons] at hsum
  exact ⟨by omega, by omega⟩

theorem evictNormal_snd (l : List (LRUHandle ν)) :
    ∀ {c : LRUCache ν}, Room c (l.filter fun e => e.priority = .normal) charge →
      (LRUCache.evictNormal charge l c).2 = shortest c.capacity.toNat
        (c.usage.toNat + charge.toNat) (l.filter fun e => e.priority = .normal) := by
  induction l with
  | nil => exact fun _ => rfl
  | cons e l ih =>
    intro c h
    rw [LRUCache.evictNormal]
    by_cases hover : c.capacity < c.usage + charge
    · rw [if_pos hover]
      rcases hpriority : e.priority with - | -
      · rw [List.filter_cons_of_pos (by simp [hpriority])] at h ⊢
        rw [if_neg (by simp), h.shortest_cons hover, ← ih (h.evictOneEntry hover)]
      · rw [List.filter_cons_of_neg (by simp [hpriority])] at h ⊢
        rw [if_pos rfl, ih h]
    · rw [if_neg hover, shortest_of_le (Nat.not_lt.1 (mt h.over_iff.2 hover))]

theorem evictDurable_snd (l : List (LRUHandle ν)) : ∀ {c : LRUCache ν}, Room c l charge →
    (LRUCache.evictDurable charge l c).2 =
      shortest c.capacity.toNat (c.usage.toNat + charge.toNat) l := by
  induction l with
  | nil => exact fun _ => rfl
  | cons e l ih =>
    intro c h
    rw [LRUCache.evictDurable]
    by_cases hover : c.capacity < c.usage + charge
    · rw [if_pos hover, h.shortest_cons hover, ← ih (h.evictOneEntry hover)]
    · rw [if_neg hover, shortest_of_le (Nat.not_lt.1 (mt h.over_iff.2 hover))]

end Room

namespace Evicts

/-- The entries that stay keep their order. -/
theorem lru_eq (h : Evicts c c' out) :
    c'.lru = c.lru.filter fun x => x.addr ∉ out.map LRUHandle.addr := by
  induction h with
  | refl c => simp
  | @step c c' e out _ _ ih =>
    rw [ih]
    change (c.lru.filter fun x => x.addr ≠ e.addr).filter _ = _
    rw [List.filter_filter]
    refine List.filter_congr fun x _ => ?_
    rw [Bool.eq_iff_iff]
    simp only [Bool.and_eq_true, decide_eq_true_eq, List.map_cons, List.mem_cons, not_or]
    exact and_comm

theorem usage_add (h : Evicts c c' out) (hsum : chargeSum out ≤ c.usage.toNat) :
    c'.usage.toNat + chargeSum out = c.usage.toNat := by
  induction h with
  | refl c => rfl
  | @step c c' e out _ _ ih =>
    rw [chargeSum_cons] at hsum ⊢
    have hle : e.charge ≤ c.usage := UInt64.le_iff_toNat_le.2 (by omega)
    have husage : (c.evictOneEntry e).usage.toNat = c.usage.toNat - e.charge.toNat :=
      UInt64.toNat_sub_of_le _ _ hle
    have := ih (by omega)
    omega

end Evicts

/-! ## The entries evicted -/

/-- The order of eviction: the normal entries, then the durable ones, the
oldest first. -/
def evictionOrder (l : List (LRUHandle ν)) : List (LRUHandle ν) :=
  l.filter (fun e => e.priority = .normal) ++ l.filter fun e => e.priority = .durable

/-- Without its normal entries a list has its durable ones. -/
theorem filter_notMem_normal (hnd : (l.map LRUHandle.addr).Nodup) :
    (l.filter fun x => x.addr ∉ (l.filter fun e => e.priority = .normal).map LRUHandle.addr) =
      l.filter fun e => e.priority = .durable := by
  refine List.filter_congr fun x hx => decide_eq_decide.2 ?_
  rcases hpriority : x.priority with - | -
  · refine iff_of_false (not_not.2 (List.mem_map_of_mem (List.mem_filter.2 ⟨hx, ?_⟩))) nofun
    rw [decide_eq_true_eq, hpriority]
  · refine iff_of_true (fun hmem => ?_) rfl
    obtain ⟨y, hy, haddr⟩ := List.mem_map.1 hmem
    obtain ⟨hy, hnormal⟩ := List.mem_filter.1 hy
    rw [List.inj_on_of_nodup_map hnd hy hx haddr, decide_eq_true_eq, hpriority] at hnormal
    exact nomatch hnormal

/-- **The hand-over**: the second loop starts with room for the durable
entries, and where it runs at all, only they are left. -/
theorem Room.evictNormal (hnd : (c.lru.map LRUHandle.addr).Nodup)
    (h : Room c (evictionOrder c.lru) charge) {c₁ : LRUCache ν}
    (hevict : LRUCache.evictNormal charge c.lru c = (c₁, out)) :
    c₁.capacity = c.capacity ∧ c₁.usage.toNat + chargeSum out = c.usage.toNat ∧
    Room c₁ (c.lru.filter fun e => e.priority = .durable) charge ∧
    (c₁.capacity < c₁.usage + charge →
      c₁.lru = c.lru.filter fun e => e.priority = .durable) := by
  have hout : out = _ := (congrArg Prod.snd hevict).symm.trans (Room.evictNormal_snd c.lru h.left)
  have hevicts : Evicts c c₁ out := by
    have hall : Evicts c (LRUCache.evictNormal charge c.lru c).1 _ :=
      evicts_evictNormal hnd fun _ hx => hx
    rwa [hevict] at hall
  have hcapacity : c₁.capacity = c.capacity := hevicts.frame.1
  have husage := hevicts.usage_add (hout ▸ h.left.sum)
  have hroom : Room c₁ (c.lru.filter fun e => e.priority = .durable) charge := by
    have hlt := h.lt
    have hsum := h.sum
    refine ⟨?_, by omega⟩
    rw [evictionOrder, shortest_append, ← hout, chargeSum_append, ← husage, ← hcapacity] at hsum
    rw [show c₁.usage.toNat + chargeSum out + charge.toNat - chargeSum out =
      c₁.usage.toNat + charge.toNat by omega] at hsum
    omega
  refine ⟨hcapacity, husage, hroom, fun hover => ?_⟩
  rw [hroom.over_iff, hcapacity] at hover
  obtain ⟨k, htake, -, hlast⟩ := shortest_spec c.capacity.toNat (c.usage.toNat + charge.toNat)
    (c.lru.filter fun e => e.priority = .normal)
  rw [← htake, ← hout] at hlast
  rw [hevicts.lru_eq, hlast.resolve_left (by omega), filter_notMem_normal hnd]

/-- **What `_evict_from_lru` evicts**, on the list of the handles. -/
theorem Room.evictFromLru_snd (hnd : (c.lru.map LRUHandle.addr).Nodup)
    (h : Room c (evictionOrder c.lru) charge) : (c.evictFromLru charge).2 =
      shortest c.capacity.toNat (c.usage.toNat + charge.toNat) (evictionOrder c.lru) := by
  rcases hevict : LRUCache.evictNormal charge c.lru c with ⟨c₁, out⟩
  obtain ⟨hcapacity, husage, hroom, hover⟩ := h.evictNormal hnd hevict
  have hout : out = _ := (congrArg Prod.snd hevict).symm.trans (Room.evictNormal_snd c.lru h.left)
  have hsecond : (LRUCache.evictDurable charge c₁.lru c₁).2 =
      shortest c₁.capacity.toNat (c₁.usage.toNat + charge.toNat)
        (c.lru.filter fun e => e.priority = .durable) := by
    by_cases hover' : c₁.capacity < c₁.usage + charge
    · rw [hover hover', hroom.evictDurable_snd]
    · rw [shortest_of_le (Nat.not_lt.1 (mt hroom.over_iff.2 hover'))]
      rcases c₁.lru with - | ⟨e, l⟩
      · rfl
      · rw [LRUCache.evictDurable, if_neg hover']
  have hboth : (c.evictFromLru charge).2 = out ++ (LRUCache.evictDurable charge c₁.lru c₁).2 := by
    rw [LRUCache.evictFromLru, hevict]
  rw [hboth, hsecond, evictionOrder, shortest_append, ← hout, hcapacity]
  congr 2
  omega

/-- **The walk over the linked list** does the same. -/
theorem Represents.returns_evictFromLru (h : Represents lc c)
    (hroom : Room c (evictionOrder c.lru) charge) :
    ∃ lc', Represents lc' (c.evictFromLru charge).1 ∧
      Returns (fun fuel => lc.evictFromLru fuel charge) (lc', (c.evictFromLru charge).2) := by
  rcases hevict : LRUCache.evictNormal charge c.lru c with ⟨c₁, out⟩
  obtain ⟨-, -, -, hover⟩ := hroom.evictNormal h.lru.nodup hevict
  obtain ⟨lc₁, hrep₁, hnormal⟩ := returns_evictNormal c.lru h (List.nil_append _).symm
  rw [hevict] at hrep₁ hnormal
  obtain ⟨lc₂, hrep₂, hdurable⟩ := returns_evictDurable c₁.lru hrep₁ rfl fun hover' e he => by
    rw [hover hover'] at he
    exact of_decide_eq_true (List.mem_filter.1 he).2
  rw [LRUCache.evictFromLru, hevict]
  refine ⟨lc₂, hrep₂, ?_⟩
  have hbind := hnormal.bind (g := fun r fuel =>
    (r.1.evictDurable charge fuel).map fun r' => (r'.1, r.2 ++ r'.2)) hdurable.map
  refine cast (congrArg₂ Returns ?_ rfl) hbind
  funext fuel
  rw [LinkedCache.evictFromLru, Option.bind_eq_bind]
  congr 1
  funext r
  rw [Option.map_eq_bind]
  rfl

theorem evicts_evictFromLru_of_nodup (hnd : (c.lru.map LRUHandle.addr).Nodup) :
    Evicts c (c.evictFromLru charge).1 (c.evictFromLru charge).2 := by
  have hnormal : Evicts c (LRUCache.evictNormal charge c.lru c).1 _ :=
    evicts_evictNormal hnd fun _ hx => hx
  refine hnormal.trans (evicts_evictDurable ?_ fun _ hx => hx)
  rw [hnormal.lru_eq]
  exact (List.filter_sublist.map _).nodup hnd

/-- The prefix that is evicted, and what is left of the cache. -/
theorem Represents.evictFromLru (h : Represents lc c)
    (hlt : c.usage.toNat + charge.toNat < 2 ^ 64)
    (hsub : ∀ k, (∀ j < k, c.capacity.toNat + chargeSum ((evictionOrder c.lru).take j) <
        c.usage.toNat + charge.toNat) →
      chargeSum ((evictionOrder c.lru).take k) ≤ c.usage.toNat) :
    ∃ lc' c' k, Represents lc' c' ∧ Evicts c c' ((evictionOrder c.lru).take k) ∧
      Returns (fun fuel => lc.evictFromLru fuel charge) (lc', (evictionOrder c.lru).take k) ∧
      (∀ j < k, c.capacity.toNat + chargeSum ((evictionOrder c.lru).take j) <
        c.usage.toNat + charge.toNat) ∧
      (c.usage.toNat + charge.toNat ≤
          c.capacity.toNat + chargeSum ((evictionOrder c.lru).take k) ∨
        (evictionOrder c.lru).take k = evictionOrder c.lru) := by
  obtain ⟨k, htake, hbefore, hlast⟩ := shortest_spec c.capacity.toNat
    (c.usage.toNat + charge.toNat) (evictionOrder c.lru)
  have hroom : Room c (evictionOrder c.lru) charge := ⟨htake ▸ hsub k hbefore, hlt⟩
  have hout := (hroom.evictFromLru_snd h.lru.nodup).trans htake
  obtain ⟨lc', hrep, hreturns⟩ := h.returns_evictFromLru hroom
  rw [hout] at hreturns
  exact ⟨lc', _, k, hrep, hout ▸ evicts_evictFromLru_of_nodup h.lru.nodup, hreturns, hbefore,
    hlast⟩

/-- **`_evict_from_lru`** evicts the shortest prefix of the eviction order
that makes room, or all of it where none does. The other entries stay in
their order, and the assertion of the second loop holds. -/
theorem evictFromLru_shortest (hlru : lc.lru.Holds (l.map LRUHandle.addr))
    (hhandle : ∀ e ∈ l, lc.handle e.addr = e)
    (hlt : lc.usage.toNat + charge.toNat < 2 ^ 64)
    (hsub : ∀ k, (∀ j < k, lc.capacity.toNat + chargeSum ((evictionOrder l).take j) <
        lc.usage.toNat + charge.toNat) →
      chargeSum ((evictionOrder l).take k) ≤ lc.usage.toNat) :
    ∃ lc' k, Returns (fun fuel => lc.evictFromLru fuel charge) (lc', (evictionOrder l).take k) ∧
      (∀ j < k, lc.capacity.toNat + chargeSum ((evictionOrder l).take j) <
        lc.usage.toNat + charge.toNat) ∧
      (lc.usage.toNat + charge.toNat ≤
          lc.capacity.toNat + chargeSum ((evictionOrder l).take k) ∨
        (evictionOrder l).take k = evictionOrder l) ∧
      lc'.usage.toNat + chargeSum ((evictionOrder l).take k) = lc.usage.toNat ∧
      lc'.lru.Holds ((l.filter fun e =>
        e.addr ∉ ((evictionOrder l).take k).map LRUHandle.addr).map LRUHandle.addr) := by
  have hrep : Represents lc { LRUCache.empty with
      capacity := lc.capacity
      usage := lc.usage
      lru := l
      table := lc.table
      refs := lc.refs
      inCache := lc.inCache } := ⟨rfl, rfl, rfl, rfl, rfl, hlru, hhandle⟩
  obtain ⟨lc', c', k, hrep', hevicts, hreturns, hbefore, hlast⟩ := hrep.evictFromLru hlt hsub
  refine ⟨lc', k, hreturns, hbefore, hlast, ?_, ?_⟩
  · rw [hrep'.usage]
    exact hevicts.usage_add (hsub k hbefore)
  · have hlist := hrep'.lru
    rwa [hevicts.lru_eq] at hlist

/-- Three entries, the oldest of them durable. -/
def threeEntries : List (LRUHandle Unit) :=
  [⟨10, [1], 1, (), 4, .durable⟩, ⟨20, [2], 2, (), 3, .normal⟩, ⟨30, [3], 3, (), 2, .normal⟩]

/-- A cache that has them on its list. -/
def threeCache : LinkedCache Unit where
  capacity := 6
  usage := 9
  lru :=
    { next p := if p = none then some (some 10) else if p = some 10 then some (some 20)
        else if p = some 20 then some (some 30) else some none
      prev p := if p = none then some (some 30) else if p = some 30 then some (some 20)
        else if p = some 20 then some (some 10) else some none }
  handle a := if a = 10 then ⟨10, [1], 1, (), 4, .durable⟩
    else if a = 20 then ⟨20, [2], 2, (), 3, .normal⟩ else ⟨30, [3], 3, (), 2, .normal⟩
  table := .empty
  refs _ := 1
  inCache _ := true

/-- The two normal ones are evicted for a charge of 1. -/
theorem evictFromLru_threeCache : ∃ lc' k,
    Returns (fun fuel => threeCache.evictFromLru fuel 1)
      (lc', (evictionOrder threeEntries).take k) ∧
    (∀ j < k, 6 + chargeSum ((evictionOrder threeEntries).take j) < 10) ∧
    (10 ≤ 6 + chargeSum ((evictionOrder threeEntries).take k) ∨
      (evictionOrder threeEntries).take k = evictionOrder threeEntries) ∧
    lc'.usage.toNat + chargeSum ((evictionOrder threeEntries).take k) = 9 ∧
    lc'.lru.Holds ((threeEntries.filter fun e =>
      e.addr ∉ ((evictionOrder threeEntries).take k).map LRUHandle.addr).map LRUHandle.addr) := by
  refine evictFromLru_shortest ⟨⟨⟨rfl, rfl⟩, ⟨rfl, rfl⟩, ⟨rfl, rfl⟩, rfl, rfl⟩, by decide⟩
    (by decide) (by decide) fun k _ => ?_
  rcases k with - | - | - | k
  · decide
  · decide
  · decide
  · rw [List.take_of_length_le (Nat.le_add_left 3 k)]
    decide

end LruCache

end CppEtudes
