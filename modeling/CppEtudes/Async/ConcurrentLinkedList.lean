import CppEtudes.Async.Model.ConcurrentLinkedList
import CppEtudes.Common.Links
import Mathlib.Data.List.Basic
import Mathlib.Tactic.Common

/-!
# What the threads find of what they have added

The nodes are in the order of their swaps, and each links to one that was
swapped before it. The list is whole if each links to the very last one.
A swap that is tried again compares with a head that was loaded before the
link of the node, and succeeds only where the head has not changed since;
for the first swap it is the other way round. So nodes are lost exactly
where a call loads two different heads and its first swap succeeds.
-/

namespace CppEtudes

namespace Async

open Links

variable {τ α : Type} {c c' : Config τ α} {t : τ} {order : List ℕ}

/-! ## The invariant -/

/-- The node of a call that is not linked yet. -/
def Pc.node : Pc → Option ℕ
  | .idle => none
  | .read node | .swap _ node _ | .reload node _ => some node

/-- The head that a call compares with. -/
def Pc.oldHead : Pc → Option ℕ
  | .swap _ _ oldHead | .reload _ oldHead => oldHead
  | _ => none

/-- **The invariant**, with the nodes in the order of their swaps, the
last one first. -/
structure Inv (c : Config τ α) (order : List ℕ) : Prop where
  head : c.next none = order.head?
  nodup : order.Nodup
  back : Backward c.next order
  own : ∀ t a, (c.pc t).node = some a → a ∉ order ∧ ∀ b, c.next (some a) = some b → b ∈ order
  apart : ∀ t t' a, (c.pc t).node = some a → (c.pc t').node = some a → t = t'
  all : ∀ a, a < c.values.length ↔ a ∈ order ∨ ∃ t, (c.pc t).node = some a
  oldHead : ∀ t b, (c.pc t).oldHead = some b → b ∈ order
  again : ∀ t a o, c.pc t = .swap true a o → c.next none = o → c.next (some a) = o

/-- A first swap that will succeed, of a node that links to another head
than the one it is compared with. -/
def Overtaken (c : Config τ α) (t : τ) : Prop :=
  ∃ node oldHead, c.pc t = .swap false node oldHead ∧ c.next none = oldHead ∧
    c.next (some node) ≠ oldHead

theorem Inv.new : Inv (Config.new : Config τ α) [] where
  head := rfl
  nodup := List.nodup_nil
  back := trivial
  own _ _ h := nomatch h
  apart _ _ _ h := nomatch h
  all a := by simp [Config.new, Pc.node]
  oldHead _ _ h := nomatch h
  again _ _ _ h := nomatch h

namespace Inv

theorem mem_of_head (h : Inv c order) {b : ℕ} (hb : c.next none = some b) : b ∈ order := by
  rw [h.head] at hb
  exact List.mem_of_head? hb

/-- A new node has not been linked. -/
theorem length_values_notMem (h : Inv c order) : c.values.length ∉ order := fun hmem =>
  Nat.lt_irrefl _ ((h.all _).2 (.inl hmem))

variable [DecidableEq τ]

/-- **A call goes on** with its node, whose link alone it may write. -/
theorem move (h : Inv c order) {a : ℕ} {pc : Pc} {next : Option ℕ → Option ℕ}
    (ha : (c.pc t).node = some a) (hnode : pc.node = some a)
    (hold : ∀ b, pc.oldHead = some b → b ∈ order) (hsame : ∀ q ≠ some a, next q = c.next q)
    (hlink : ∀ b, next (some a) = some b → b ∈ order)
    (hagain : ∀ a o, pc = .swap true a o → c.next none = o → next (some a) = o) :
    Inv { c.goto t pc with next := next } order := by
  have hfresh := (h.own t a ha).1
  have hself : (Function.update c.pc t pc) t = pc := Function.update_self ..
  have hother {t' : τ} (hne : t' ≠ t) : (Function.update c.pc t pc) t' = c.pc t' :=
    Function.update_of_ne hne ..
  have hpcs (t' : τ) : ((Function.update c.pc t pc) t').node = (c.pc t').node := by
    rcases eq_or_ne t' t with rfl | hne
    · rw [hself, hnode, ha]
    · rw [hother hne]
  have hroot : next none = c.next none := hsame none nofun
  refine ⟨hroot.trans h.head, h.nodup, h.back.congr fun b hb => hsame _ ?_, fun t' b hb => ?_,
    fun t₁ t₂ b h₁ h₂ => ?_, fun b => ?_, fun t' b hb => ?_, fun t' b o hb hhead => ?_⟩
  · rintro ⟨rfl⟩
    exact hfresh hb
  · have hb' : (c.pc t').node = some b := (hpcs t').symm.trans hb
    obtain ⟨hnot, hmem⟩ := h.own t' b hb'
    refine ⟨hnot, fun b' hlinked => ?_⟩
    rcases eq_or_ne b a with rfl | hne
    · exact hlink b' hlinked
    · exact hmem b' ((hsame (some b) fun heq => hne (Option.some.inj heq)).symm.trans hlinked)
  · exact h.apart t₁ t₂ b ((hpcs t₁).symm.trans h₁) ((hpcs t₂).symm.trans h₂)
  · simp only [Config.goto, hpcs]
    exact h.all b
  · rcases eq_or_ne t' t with rfl | hne
    · exact hold b (hself ▸ hb)
    · exact h.oldHead t' b (hother hne ▸ hb)
  · have hhead' : c.next none = o := hroot.symm.trans hhead
    rcases eq_or_ne t' t with rfl | hne
    · exact hagain b o (hself.symm.trans hb) hhead'
    · have hpc : c.pc t' = .swap true b o := (hother hne).symm.trans hb
      have hne' : b ≠ a := by
        rintro rfl
        exact hne (h.apart t' t b (by rw [hpc]; rfl) ha)
      exact (hsame (some b) fun heq => hne' (Option.some.inj heq)).trans (h.again t' b o hpc hhead')

/-- **A call begins** with a new node. -/
theorem add (h : Inv c order) (hpc : c.pc t = .idle) (v : α) :
    Inv { c.goto t (.read c.values.length) with
      next := Function.update c.next (some c.values.length) (c.next none)
      values := c.values ++ [v] } order := by
  have hself : (Function.update c.pc t (.read c.values.length)) t = .read c.values.length :=
    Function.update_self ..
  have hother {t' : τ} (hne : t' ≠ t) :
      (Function.update c.pc t (.read c.values.length)) t' = c.pc t' := Function.update_of_ne hne ..
  have hnew := h.length_values_notMem
  have hnode {t' : τ} {b : ℕ} (hb : (c.pc t').node = some b) : b ≠ c.values.length :=
    Nat.ne_of_lt ((h.all b).2 (.inr ⟨t', hb⟩))
  have hsame {b : ℕ} (hne : b ≠ c.values.length) :
      Function.update c.next (some c.values.length) (c.next none) (some b) = c.next (some b) :=
    Function.update_of_ne (fun heq => hne (Option.some.inj heq)) ..
  have hroot : Function.update c.next (some c.values.length) (c.next none) none = c.next none :=
    Function.update_of_ne (Option.some_ne_none _).symm ..
  have hlast : Function.update c.next (some c.values.length) (c.next none)
      (some c.values.length) = c.next none := Function.update_self ..
  -- the node of another thread is not the new one
  have hcases {t' : τ} {b : ℕ}
      (hb : ((Function.update c.pc t (.read c.values.length)) t').node = some b) :
      t' = t ∧ b = c.values.length ∨ t' ≠ t ∧ (c.pc t').node = some b := by
    rcases eq_or_ne t' t with rfl | hne
    · rw [hself] at hb
      exact .inl ⟨rfl, (Option.some.inj hb).symm⟩
    · exact .inr ⟨hne, hother hne ▸ hb⟩
  refine ⟨hroot.trans h.head, h.nodup, h.back.congr fun b hb => hsame ?_, fun t' b hb => ?_,
    fun t₁ t₂ b h₁ h₂ => ?_, fun b => ?_, fun t' b hb => ?_, fun t' b o hb hhead => ?_⟩
  · rintro rfl
    exact hnew hb
  · rcases hcases hb with ⟨rfl, rfl⟩ | ⟨-, hb⟩
    · refine ⟨hnew, fun b' hb' => h.mem_of_head ?_⟩
      exact hlast.symm.trans hb'
    · obtain ⟨hnot, hmem⟩ := h.own t' b hb
      exact ⟨hnot, fun b' hb' => hmem b' ((hsame (hnode hb)).symm.trans hb')⟩
  · rcases hcases h₁ with ⟨ht₁, hb₁⟩ | ⟨-, ha₁⟩
    · rcases hcases h₂ with ⟨ht₂, -⟩ | ⟨-, ha₂⟩
      · rw [ht₁, ht₂]
      · exact absurd hb₁ (hnode ha₂)
    · rcases hcases h₂ with ⟨-, hb₂⟩ | ⟨-, ha₂⟩
      · exact absurd hb₂ (hnode ha₁)
      · exact h.apart t₁ t₂ b ha₁ ha₂
  · rw [List.length_append, List.length_singleton, Nat.lt_succ_iff_lt_or_eq, h.all b, or_assoc]
    refine or_congr_right ⟨?_, ?_⟩
    · rintro (⟨t', hb⟩ | rfl)
      · refine ⟨t', ?_⟩
        rcases eq_or_ne t' t with rfl | hne
        · rw [hpc] at hb
          exact nomatch hb
        · exact (congrArg Pc.node (hother hne)).trans hb
      · exact ⟨t, congrArg Pc.node hself⟩
    · rintro ⟨t', hb⟩
      rcases hcases hb with ⟨-, rfl⟩ | ⟨-, hb⟩
      · exact .inr rfl
      · exact .inl ⟨t', hb⟩
  · rcases eq_or_ne t' t with rfl | hne
    · exact nomatch (congrArg Pc.oldHead hself).symm.trans hb
    · exact h.oldHead t' b (hother hne ▸ hb)
  · rcases eq_or_ne t' t with rfl | hne
    · exact nomatch hself.symm.trans hb
    · have hpc' : c.pc t' = .swap true b o := (hother hne).symm.trans hb
      have hb' : (c.pc t').node = some b := by rw [hpc']; rfl
      exact (hsame (hnode hb')).trans (h.again t' b o hpc' (hroot.symm.trans hhead))

/-- **A swap succeeds**, and its node comes first. -/
theorem swap (h : Inv c order) {a : ℕ} (ha : (c.pc t).node = some a) :
    Inv { c.goto t .idle with next := Function.update c.next none (some a) } (a :: order) := by
  obtain ⟨hnot, hlink⟩ := h.own t a ha
  have hself : (Function.update c.pc t .idle) t = .idle := Function.update_self ..
  have hother {t' : τ} (hne : t' ≠ t) : (Function.update c.pc t .idle) t' = c.pc t' :=
    Function.update_of_ne hne ..
  have hsame (b : ℕ) : Function.update c.next none (some a) (some b) = c.next (some b) :=
    Function.update_of_ne (Option.some_ne_none b) ..
  have hcases {t' : τ} {b : ℕ} (hb : ((Function.update c.pc t .idle) t').node = some b) :
      t' ≠ t ∧ (c.pc t').node = some b := by
    rcases eq_or_ne t' t with rfl | hne
    · rw [hself] at hb
      exact nomatch hb
    · exact ⟨hne, hother hne ▸ hb⟩
  have hfirst : Function.update c.next none (some a) none = some a := Function.update_self ..
  refine ⟨hfirst, List.nodup_cons.2 ⟨hnot, h.nodup⟩,
    ⟨fun b hb => hlink b (hsame a ▸ hb), h.back.congr fun b _ => hsame b⟩, fun t' b hb => ?_,
    fun t₁ t₂ b h₁ h₂ => h.apart t₁ t₂ b (hcases h₁).2 (hcases h₂).2, fun b => ?_,
    fun t' b hb => ?_, fun t' b o hb hhead => ?_⟩
  · obtain ⟨hne, hnode⟩ := hcases hb
    obtain ⟨hnot', hmem⟩ := h.own t' b hnode
    refine ⟨fun hmem' => ?_, fun b' hb' => List.mem_cons_of_mem _ (hmem b' (hsame b ▸ hb'))⟩
    rcases List.mem_cons.1 hmem' with rfl | hmem'
    · exact hne (h.apart t' t b hnode ha)
    · exact hnot' hmem'
  · change b < c.values.length ↔ _
    rw [h.all b, List.mem_cons]
    constructor
    · rintro (hmem | ⟨t', hb⟩)
      · exact .inl (.inr hmem)
      · rcases eq_or_ne t' t with rfl | hne
        · exact .inl (.inl (Option.some.inj (hb.symm.trans ha)))
        · exact .inr ⟨t', (congrArg Pc.node (hother hne)).trans hb⟩
    · rintro ((rfl | hmem) | ⟨t', hb⟩)
      · exact .inr ⟨t, ha⟩
      · exact .inl hmem
      · exact .inr ⟨t', (hcases hb).2⟩
  · rcases eq_or_ne t' t with rfl | hne
    · exact nomatch (congrArg Pc.oldHead hself).symm.trans hb
    · exact List.mem_cons_of_mem _ (h.oldHead t' b (hother hne ▸ hb))
  · -- the new head is none that anyone compares with
    rcases eq_or_ne t' t with rfl | hne
    · exact nomatch hself.symm.trans hb
    · have hpc : c.pc t' = .swap true b o := (hother hne).symm.trans hb
      have ho : o = some a := hhead.symm.trans hfirst
      exact absurd (h.oldHead t' a (by rw [hpc, ho]; rfl)) hnot

end Inv

/-! ## Steps -/

/-- Only a first swap is overtaken. -/
theorem not_overtaken (hpc : ∀ node o, c.pc t ≠ .swap false node o) : ¬ Overtaken c t := by
  rintro ⟨node, o, hswap, -⟩
  exact hpc node o hswap

/-- **At a swap that succeeds**, the node links to the old head, or the
call was overtaken. -/
theorem Inv.not_overtaken_iff (h : Inv c order) {again : Bool} {node : ℕ} {o : Option ℕ}
    (hpc : c.pc t = .swap again node o) (hhead : c.next none = o) :
    ¬ Overtaken c t ↔ c.next (some node) = c.next none := by
  constructor
  · intro hnot
    by_contra hne
    rcases again with - | -
    · exact hnot ⟨node, o, hpc, hhead, hhead ▸ hne⟩
    · exact hne ((h.again t node o hpc hhead).trans hhead.symm)
  · rintro heq ⟨n, o', hswap, hhead', hne⟩
    obtain ⟨-, rfl, rfl⟩ := Pc.swap.inj (hpc.symm.trans hswap)
    exact hne (heq.trans hhead')

/-- The link of a node that has not been swapped is not on the list. -/
theorem chain_update_iff {next : Option ℕ → Option ℕ} {a : ℕ} (ha : a ∉ order) (b : Option ℕ) :
    Chain (Function.update next (some a) b) none order ↔ Chain next none order := by
  refine Chain.congr_iff fun q hq => Function.update_of_ne ?_ ..
  rintro rfl
  rcases List.mem_cons.1 hq with hq | hq
  · exact nomatch hq
  · obtain ⟨b, hb, heq⟩ := List.mem_map.1 hq
    exact ha (Option.some.inj heq ▸ hb)

/-- **The list behind a swap** is whole if the old one was, and the node
links to its head. -/
theorem Inv.chain_swap_iff (h : Inv c order) (node : ℕ) :
    Chain (Function.update c.next none (some node)) none (node :: order) ↔
      Chain c.next none order ∧ c.next (some node) = c.next none := by
  have hfirst : Function.update c.next none (some node) none = some node :=
    Function.update_self ..
  have htail : Chain (Function.update c.next none (some node)) (some node) order ↔
      Chain c.next (some node) order := by
    refine Chain.congr_iff fun q hq => Function.update_of_ne ?_ ..
    rintro rfl
    simp at hq
  have hcons : Chain (Function.update c.next none (some node)) none (node :: order) ↔
      Chain (Function.update c.next none (some node)) (some node) order := and_iff_right hfirst
  rw [hcons, htail]
  have hhead := h.head
  rcases order with - | ⟨b, l⟩
  · exact ⟨fun hn => ⟨hhead, hn.trans hhead.symm⟩, fun hn => hn.2.trans hn.1⟩
  · exact ⟨fun hn => ⟨⟨hhead, hn.2⟩, hn.1.trans hhead.symm⟩, fun hn => ⟨hn.2.trans hhead, hn.1.2⟩⟩

/-- **What a step does**: the list stays whole unless a call was
overtaken. -/
theorem Inv.step [DecidableEq τ] (h : Inv c order) {a : Action α} (hstep : c.step t a = some c') :
    ∃ order', Inv c' order' ∧
      (Chain c'.next none order' ↔ Chain c.next none order ∧ ¬ Overtaken c t) := by
  rcases a with v | -
  · simp only [Config.step] at hstep
    split_ifs at hstep with hpc
    obtain rfl := Option.some.inj hstep
    have hnot : ¬ Overtaken c t := not_overtaken (by simp [hpc])
    exact ⟨order, h.add hpc v,
      (chain_update_iff h.length_values_notMem _).trans (and_iff_left hnot).symm⟩
  · rcases hpc : c.pc t with - | node | ⟨again, node, o⟩ | ⟨node, o⟩ <;>
      simp only [Config.step, Config.run, hpc, reduceCtorEq] at hstep
    · obtain rfl := Option.some.inj hstep
      have hnode : (c.pc t).node = some node := by rw [hpc]; rfl
      have hnot : ¬ Overtaken c t := not_overtaken (by simp [hpc])
      exact ⟨order, h.move hnode rfl (fun b hb => h.mem_of_head hb) (fun _ _ => rfl)
        (h.own t node hnode).2 nofun, (and_iff_left hnot).symm⟩
    · have hnode : (c.pc t).node = some node := by rw [hpc]; rfl
      split_ifs at hstep with hhead
      · obtain rfl := Option.some.inj hstep
        refine ⟨node :: order, h.swap hnode, ?_⟩
        rw [h.not_overtaken_iff hpc hhead]
        exact h.chain_swap_iff node
      · obtain rfl := Option.some.inj hstep
        refine ⟨order, h.move hnode rfl (fun b hb => h.mem_of_head hb) (fun _ _ => rfl)
          (h.own t node hnode).2 nofun, (and_iff_left ?_).symm⟩
        rintro ⟨n, o', hswap, hhead', -⟩
        obtain ⟨-, -, rfl⟩ := Pc.swap.inj (hpc.symm.trans hswap)
        exact hhead hhead'
    · obtain rfl := Option.some.inj hstep
      have hnode : (c.pc t).node = some node := by rw [hpc]; rfl
      have hnot : ¬ Overtaken c t := not_overtaken (by simp [hpc])
      refine ⟨order, h.move hnode rfl (fun b hb => h.oldHead t b (by rw [hpc]; exact hb))
        (fun q hq => Function.update_of_ne hq ..) (fun b hb => h.mem_of_head ?_)
        (fun a o' heq hhead => ?_),
        (chain_update_iff (h.own t node hnode).1 _).trans (and_iff_left hnot).symm⟩
      · rwa [Function.update_self] at hb
      · obtain ⟨-, rfl, rfl⟩ := Pc.swap.inj heq
        exact (Function.update_self ..).trans hhead

/-! ## Interleavings -/

/-- **The list is whole**: the nodes met from the head on have all values
that were added, each as often as it was added. -/
def Visits (c : Config τ α) : Prop :=
  ∃ l, Chain c.next none l ∧ (l.map fun a => c.values[a]?).Perm (c.values.map some)

/-- With no call in progress, the list is whole if it has all nodes in
their order. -/
theorem Inv.visits_iff (h : Inv c order) (hidle : ∀ t, c.pc t = .idle) :
    Visits c ↔ Chain c.next none order := by
  have hall (a : ℕ) : a ∈ order ↔ a < c.values.length := by
    rw [h.all a, or_iff_left]
    rintro ⟨t, ht⟩
    rw [hidle t] at ht
    exact nomatch ht
  have hperm : order.Perm (List.range c.values.length) := by
    refine (List.perm_ext_iff_of_nodup h.nodup List.nodup_range).2 fun a => ?_
    rw [hall a, List.mem_range]
  have hvalues : (List.range c.values.length).map (fun a => c.values[a]?) = c.values.map some := by
    refine List.ext_getElem (by simp) fun i h₁ h₂ => ?_
    rw [List.length_map] at h₂
    rw [List.getElem_map, List.getElem_map, List.getElem_range, List.getElem?_eq_getElem h₂]
  constructor
  · rintro ⟨l, hchain, hvisits⟩
    have hsub : l.Sublist order := h.back.sublist (fun b hb => h.mem_of_head hb) hchain
    have hlength : l.length = order.length := by
      have := hvisits.length_eq
      rw [List.length_map, List.length_map] at this
      rw [this, hperm.length_eq, List.length_range]
    rwa [← hsub.eq_of_length hlength]
  · intro hchain
    exact ⟨order, hchain, hvalues ▸ hperm.map _⟩

variable [DecidableEq τ]

/-- **No call is overtaken** in an interleaving. -/
def NotOvertaken : Config τ α → List (τ × Action α) → Prop
  | _, [] => True
  | c, (t, a) :: schedule => ¬ Overtaken c t ∧ ∀ c', c.step t a = some c' → NotOvertaken c' schedule

theorem Inv.runs {d : Config τ α} {schedule : List (τ × Action α)} (h : Inv c order)
    (hrun : c.runs schedule = some d) : ∃ order', Inv d order' ∧
      (Chain d.next none order' ↔ Chain c.next none order ∧ NotOvertaken c schedule) := by
  induction schedule generalizing c order with
  | nil =>
    obtain rfl := Option.some.inj hrun
    exact ⟨order, h, (and_iff_left trivial).symm⟩
  | cons ta schedule ih =>
    rw [Config.runs, List.foldlM_cons] at hrun
    obtain ⟨c₁, hstep, hrest⟩ := Option.bind_eq_some_iff.1 hrun
    obtain ⟨order₁, h₁, hchain₁⟩ := h.step hstep
    obtain ⟨order₂, h₂, hchain₂⟩ := ih h₁ hrest
    have hnext : NotOvertaken c₁ schedule ↔
        ∀ c', c.step ta.1 ta.2 = some c' → NotOvertaken c' schedule := by
      refine ⟨fun hn c' hc' => ?_, fun hn => hn c₁ hstep⟩
      rwa [← Option.some.inj (hstep.symm.trans hc')]
    exact ⟨order₂, h₂, by rw [hchain₂, hchain₁, hnext, and_assoc]; rfl⟩

/-- **Nothing is lost if and only if no call is overtaken**: once all
calls have returned, the list has every value exactly once, unless a call
has loaded two different heads and its first swap has succeeded. -/
theorem visits_iff_notOvertaken {c : Config τ α} {schedule : List (τ × Action α)}
    (hrun : Config.new.runs schedule = some c) (hidle : ∀ t, c.pc t = .idle) :
    Visits c ↔ NotOvertaken (Config.new : Config τ α) schedule := by
  obtain ⟨order, h, hchain⟩ := Inv.new.runs hrun
  rw [h.visits_iff hidle, hchain]
  exact and_iff_right rfl

/-- Two threads add one value each: the second starts while the first is
about to swap. -/
def retried : List (Bool × Action ℕ) :=
  [(false, .add 7), (false, .run), (true, .add 8), (true, .run), (false, .run), (true, .run),
    (true, .run), (true, .run)]

theorem notOvertaken_retried : ∃ c : Config Bool ℕ, Config.new.runs retried = some c ∧
    (∀ t, c.pc t = .idle) ∧ Visits c ∧ NotOvertaken (Config.new : Config Bool ℕ) retried := by
  have hend : ((Config.new : Config Bool ℕ).runs retried).map (fun c =>
      ((c.pc false, c.pc true), c.values, c.next none, c.next (some 1), c.next (some 0))) =
      some ((.idle, .idle), [7, 8], some 1, some 0, none) := by decide
  obtain ⟨c, hrun, hvalues⟩ := Option.map_eq_some_iff.1 hend
  simp only [Prod.mk.injEq] at hvalues
  obtain ⟨⟨hfalse, htrue⟩, hvalues, hhead, hnext₁, hnext₀⟩ := hvalues
  have hidle : ∀ t, c.pc t = .idle := Bool.forall_bool.2 ⟨hfalse, htrue⟩
  have hvisits : Visits c := ⟨[1, 0], ⟨hhead, hnext₁, hnext₀⟩, by rw [hvalues]; decide⟩
  exact ⟨c, hrun, hidle, hvisits, (visits_iff_notOvertaken hrun hidle).1 hvisits⟩

/-- A thread adds a value between the two loads of another. -/
def overtaken : List (Bool × Action ℕ) :=
  [(false, .add 7), (true, .add 8), (true, .run), (true, .run), (false, .run), (false, .run)]

/-- **The value in between is lost.** -/
theorem not_visits_overtaken : ∃ c : Config Bool ℕ, Config.new.runs overtaken = some c ∧
    (∀ t, c.pc t = .idle) ∧ c.values = [7, 8] ∧ Chain c.next none [0] ∧ ¬ Visits c := by
  have hend : ((Config.new : Config Bool ℕ).runs overtaken).map
      (fun c => ((c.pc false, c.pc true), c.values, c.next none, c.next (some 0))) =
      some ((.idle, .idle), [7, 8], some 0, none) := by decide
  obtain ⟨c, hrun, hvalues⟩ := Option.map_eq_some_iff.1 hend
  simp only [Prod.mk.injEq] at hvalues
  obtain ⟨⟨hfalse, htrue⟩, hvalues, hhead, hnext⟩ := hvalues
  have hchain : Chain c.next none [0] := ⟨hhead, hnext⟩
  refine ⟨c, hrun, Bool.forall_bool.2 ⟨hfalse, htrue⟩, hvalues, hchain, ?_⟩
  rintro ⟨l, hl, hperm⟩
  have := hperm.length_eq
  rw [hl.unique hchain, hvalues] at this
  exact absurd this (by decide)

end Async

end CppEtudes
