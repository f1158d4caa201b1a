import CppEtudes.Common.Links
import CppEtudes.Concurrent.Model.MichaelList
import Mathlib.Data.List.Chain
import Mathlib.Tactic.Common

/-!
# The list in memory

A node is *linked* once its linking swap has succeeded. The nodes met
from the head are in strictly ascending order, and a linked node without
a mark is among them. A swap says what its word is at that moment, so
that a successful one is known to happen at a place of the chain: no tag
is needed for that, and the tags may be of any kind.

The list changes in three ways: a link, a mark and an unlinking. Each
is taken here once, with what it adds to the histories of the keys.
-/

namespace CppEtudes

namespace Concurrent

open Links

variable {τ : Type}

/-! ## The memory -/

namespace Memory

def ptr (m : Memory τ) (p : Option ℕ) : Option ℕ := (m.word p).ptr

def marked (m : Memory τ) (a : ℕ) : Bool := (m.word (some a)).mark

variable {m : Memory τ} {p q : Option ℕ} {w : Word τ}

theorem word_write_self : (m.write p w).word p = w := Function.update_self ..

theorem word_write_of_ne (h : q ≠ p) : (m.write p w).word q = m.word q :=
  Function.update_of_ne h _ _

theorem marked_of_word {a : ℕ} (hword : m.word p = w) (ha : p = some a) : m.marked a = w.mark := by
  rw [marked, ← ha, hword]

theorem ptr_write : (m.write p w).ptr = Function.update m.ptr p w.ptr := by
  funext q
  rcases eq_or_ne q p with rfl | h
  · rw [Function.update_self, ptr, word_write_self]
  · rw [Function.update_of_ne h, ptr, word_write_of_ne h, ptr]

end Memory

/-- The node has been linked. -/
def Linked (log : List Event) (a : ℕ) : Prop := ∃ e ∈ log, e.kind = .inserted ∧ e.node = a

/-- What has happened to a key. -/
def history (log : List Event) (k : ℕ) : List Kind := (log.filter fun e => e.key = k).map Event.kind

/-- Insertions and removals in turns, an insertion first. -/
def Alternates (l : List Kind) : Prop := l.IsChain (· ≠ ·) ∧ l.head? ≠ some .removed

/-- The histories of the keys, with the keys that are there at the end. -/
structure Recorded (log : List Event) (present : ℕ → Prop) : Prop where
  alternates : ∀ k, Alternates (history log k)
  getLast? : ∀ k, (history log k).getLast? = some .inserted ↔ present k

section History

variable {log : List Event} {present : ℕ → Prop} {a n k : ℕ}

theorem linked_append_inserted :
    Linked (log ++ [⟨.inserted, n, k⟩]) a ↔ Linked log a ∨ a = n := by
  simp only [Linked, List.mem_append, List.mem_singleton, or_and_right, exists_or, exists_eq_left,
    true_and]
  exact or_congr_right eq_comm

theorem linked_append_removed : Linked (log ++ [⟨.removed, n, k⟩]) a ↔ Linked log a := by
  simp [Linked, or_and_right, exists_or]

theorem history_append_self (kind : Kind) :
    history (log ++ [⟨kind, n, k⟩]) k = history log k ++ [kind] := by
  simp [history]

theorem history_append_of_ne {k' : ℕ} (kind : Kind) (h : k' ≠ k) :
    history (log ++ [⟨kind, n, k⟩]) k' = history log k' := by
  simp [history, h.symm]

theorem Alternates.append_inserted {l : List Kind} (h : Alternates l)
    (hlast : l.getLast? ≠ some .inserted) : Alternates (l ++ [.inserted]) := by
  refine ⟨List.isChain_append.2 ⟨h.1, List.isChain_singleton _, fun x hx y hy => ?_⟩, ?_⟩
  · rintro rfl
    obtain rfl : x = .inserted := by simpa using hy.symm
    exact hlast hx
  · rcases l with - | ⟨x, l⟩
    · simp
    · exact h.2

theorem Alternates.append_removed {l : List Kind} (h : Alternates l)
    (hlast : l.getLast? = some .inserted) : Alternates (l ++ [.removed]) := by
  refine ⟨List.isChain_append.2 ⟨h.1, List.isChain_singleton _, fun x hx y hy => ?_⟩, ?_⟩
  · obtain rfl : y = .removed := by simpa using hy.symm
    obtain rfl : x = .inserted := by simpa [hlast] using hx.symm
    exact Kind.noConfusion
  · rcases l with - | ⟨x, l⟩
    · simp at hlast
    · exact h.2

theorem Recorded.inserted (h : Recorded log present) (hk : ¬ present k) :
    Recorded (log ++ [⟨.inserted, n, k⟩]) fun k' => k' = k ∨ present k' := by
  refine ⟨fun k' => ?_, fun k' => ?_⟩
  all_goals rcases eq_or_ne k' k with rfl | hne
  · rw [history_append_self]
    exact (h.alternates k').append_inserted fun hlast => hk ((h.getLast? k').1 hlast)
  · rw [history_append_of_ne _ hne]
    exact h.alternates k'
  · rw [history_append_self, List.getLast?_concat]
    exact iff_of_true rfl (Or.inl rfl)
  · rw [history_append_of_ne _ hne, h.getLast?]
    exact (or_iff_right hne).symm

theorem Recorded.removed (h : Recorded log present) (hk : present k) :
    Recorded (log ++ [⟨.removed, n, k⟩]) fun k' => k' ≠ k ∧ present k' := by
  refine ⟨fun k' => ?_, fun k' => ?_⟩
  all_goals rcases eq_or_ne k' k with rfl | hne
  · rw [history_append_self]
    exact (h.alternates k').append_removed ((h.getLast? k').2 hk)
  · rw [history_append_of_ne _ hne]
    exact h.alternates k'
  · rw [history_append_self, List.getLast?_concat]
    exact iff_of_false (by simp) fun hp => hp.1 rfl
  · rw [history_append_of_ne _ hne, h.getLast?]
    exact (and_iff_right hne).symm

theorem Recorded.congr {present' : ℕ → Prop} (h : Recorded log present)
    (hp : ∀ k, present k ↔ present' k) : Recorded log present' :=
  ⟨h.alternates, fun k => (h.getLast? k).trans (hp k)⟩

end History

/-- **The list in memory**, whose chain from the head is `nodes`. -/
structure Shared (m : Memory τ) (log : List Event) (nodes : List ℕ) :
    Prop where
  chain : Chain m.ptr none nodes
  sorted : nodes.Pairwise fun a b => m.key a < m.key b
  linked : ∀ a ∈ nodes, Linked log a
  unmarked : ∀ a, Linked log a → m.marked a = false → a ∈ nodes
  closed : ∀ a b, Linked log a → m.ptr (some a) = some b → Linked log b
  fresh : ∀ a, Linked log a → a < m.fresh
  recorded : Recorded log fun k => ∃ a ∈ nodes, m.marked a = false ∧ m.key a = k

/-- A place of the chain, the key of its node below `k`. -/
def Below (m : Memory τ) (log : List Event) (k : ℕ) (p : Option ℕ) : Prop :=
  ∀ a, p = some a → Linked log a ∧ m.key a < k

namespace Shared

variable {m m' : Memory τ} {log : List Event} {nodes : List ℕ} {p : Option ℕ} {a b n k : ℕ}

theorem empty [Zero τ] : Shared (Memory.new : Memory τ) [] [] where
  chain := rfl
  sorted := List.Pairwise.nil
  linked := fun _ h => absurd h List.not_mem_nil
  unmarked := fun _ ⟨_, h, _⟩ => absurd h List.not_mem_nil
  closed := fun _ _ ⟨_, h, _⟩ => absurd h List.not_mem_nil
  fresh := fun _ ⟨_, h, _⟩ => absurd h List.not_mem_nil
  recorded := ⟨fun _ => ⟨List.isChain_nil, by simp [history]⟩, fun _ => by simp [history]⟩

variable (h : Shared m log nodes)
include h

theorem nodup : nodes.Nodup :=
  h.sorted.imp fun hlt => by
    rintro rfl
    exact Nat.lt_irrefl _ hlt

theorem nodup_places : ((none : Option ℕ) :: nodes.map some).Nodup :=
  Chain.nodup_places h.nodup fun _ _ => by simp

/-- A key stands in the chain once. -/
theorem eq_of_key (ha : a ∈ nodes) (hb : b ∈ nodes) (hk : m.key a = m.key b) : a = b := by
  have hkeys : (nodes.map m.key).Nodup :=
    List.pairwise_map.2 (h.sorted.imp fun hlt => Nat.ne_of_lt hlt)
  exact List.inj_on_of_nodup_map hkeys ha hb hk

/-- A place whose word has no mark is one of the chain. -/
theorem exists_append (hp : Below m log k p) (hmark : (m.word p).mark = false) :
    ∃ l₁ l₂, nodes = l₁ ++ l₂ ∧ last none l₁ = p ∧ m.ptr p = l₂.head? ∧
      ∀ a ∈ l₁, m.key a < k := by
  have hplace : p = none ∨ ∃ a ∈ nodes, p = some a := by
    rcases p with - | a
    · exact Or.inl rfl
    · exact Or.inr ⟨a, h.unmarked a (hp a rfl).1 hmark, rfl⟩
  obtain ⟨l₁, l₂, rfl, hlast, hnext⟩ := h.chain.exists_append_of_next hplace
  refine ⟨l₁, l₂, rfl, hlast, hnext, fun a ha => ?_⟩
  -- the last node of the first part is the one of the place
  rcases List.eq_nil_or_concat' l₁ with rfl | ⟨l, c, rfl⟩
  · exact absurd ha List.not_mem_nil
  · rw [last_append] at hlast
    have hc : m.key c < k := (hp c hlast.symm).2
    rcases List.mem_append.1 ha with ha | ha
    · have hsorted := (List.pairwise_append.1 h.sorted).1
      exact ((List.pairwise_append.1 hsorted).2.2 a ha c List.mem_cons_self).trans hc
    · rwa [List.mem_singleton.1 ha]

/-- Memory that no linked node shows. -/
theorem congr (hword : m'.word none = m.word none)
    (hlinked : ∀ a, Linked log a → m'.word (some a) = m.word (some a) ∧ m'.key a = m.key a)
    (hfresh : m.fresh ≤ m'.fresh) : Shared m' log nodes := by
  have hkey {a : ℕ} (ha : a ∈ nodes) : m'.key a = m.key a := (hlinked a (h.linked a ha)).2
  have hmark {a : ℕ} (ha : Linked log a) : m'.marked a = m.marked a := by
    rw [Memory.marked, (hlinked a ha).1, Memory.marked]
  refine
    { h with
      chain := h.chain.congr fun q hq => ?_
      sorted := h.sorted.imp_of_mem fun ha hb hlt => by rwa [hkey ha, hkey hb]
      unmarked := fun a ha hm => h.unmarked a ha ((hmark ha).symm.trans hm)
      closed := fun a b ha hab => h.closed a b ha ?_
      fresh := fun a ha => (h.fresh a ha).trans_le hfresh
      recorded := h.recorded.congr fun k => ?_ }
  · rcases List.mem_cons.1 hq with rfl | hq
    · rw [Memory.ptr, hword, Memory.ptr]
    · obtain ⟨a, ha, rfl⟩ := List.mem_map.1 hq
      rw [Memory.ptr, (hlinked a (h.linked a ha)).1, Memory.ptr]
  · rwa [Memory.ptr, (hlinked a ha).1] at hab
  · refine exists_congr fun a => and_congr_right fun ha => ?_
    rw [hmark (h.linked a ha), hkey ha]

/-- **A node is linked.** -/
theorem link {q : Option ℕ} {t t' : τ} (hp : Below m log k p) (hword : m.word p = ⟨q, false, t⟩)
    (hn : ¬ Linked log n) (hfresh : n < m.fresh) (hkey : m.key n = k)
    (hnode : m.ptr (some n) = q ∧ m.marked n = false) (hq : ∀ b, q = some b → k < m.key b) :
    ∃ nodes', Shared (m.write p ⟨some n, false, t'⟩) (log ++ [⟨.inserted, n, k⟩]) nodes' := by
  obtain ⟨l₁, l₂, rfl, hlast, hnext, hbelow⟩ := h.exists_append hp (by rw [hword])
  have hqnext : q = l₂.head? := by rw [← hnext, Memory.ptr, hword]
  have hpn : (some n : Option ℕ) ≠ p := fun hpn => hn (hp n hpn.symm).1
  have hmem : n ∉ l₁ ++ l₂ := fun hmem => hn (h.linked n hmem)
  have habove (b : ℕ) (hb : b ∈ l₂) : k < m.key b := by
    rcases l₂ with - | ⟨c, l₂⟩
    · exact absurd hb List.not_mem_nil
    · have hc := hq c hqnext
      rcases List.mem_cons.1 hb with rfl | hb
      · exact hc
      · have hsorted := (List.pairwise_append.1 h.sorted).2.1
        exact hc.trans (List.rel_of_pairwise_cons hsorted hb)
  have hnone (a : ℕ) (ha : a ∈ l₁ ++ l₂) : m.key a ≠ k := by
    rcases List.mem_append.1 ha with ha | ha
    · exact (hbelow a ha).ne
    · exact (habove a ha).ne'
  have hmark (a : ℕ) : (m.write p ⟨some n, false, t'⟩).marked a = m.marked a := by
    rcases eq_or_ne (some a) p with hap | hap
    · rw [Memory.marked, hap, Memory.word_write_self, Memory.marked, hap, hword]
    · rw [Memory.marked, Memory.word_write_of_ne hap, Memory.marked]
  have hmemn : n ∈ l₁ ++ n :: l₂ := List.mem_append_right _ List.mem_cons_self
  have hsub {a : ℕ} : a ∈ l₁ ++ l₂ → a ∈ l₁ ++ n :: l₂ := by
    rw [List.mem_append, List.mem_append, List.mem_cons]
    exact fun ha => ha.imp_right Or.inr
  refine ⟨l₁ ++ n :: l₂, ?_, ?_, fun a ha => ?_, fun a ha hm => ?_, fun a b ha hab => ?_,
    fun a ha => ?_, (h.recorded.inserted fun ⟨a, ha, _, hak⟩ => hnone a ha hak).congr fun k' => ?_⟩
  · rw [Memory.ptr_write, ← hlast]
    refine h.chain.link h.nodup_places (fun q' hq' => ?_) (hnode.1.trans hqnext)
    rintro rfl
    rcases List.mem_cons.1 hq' with hq' | hq'
    · exact absurd hq' (by simp)
    · obtain ⟨a, ha, hae⟩ := List.mem_map.1 hq'
      exact hmem (Option.some.inj hae ▸ ha)
  · obtain ⟨hs₁, hs₂, hs₁₂⟩ := List.pairwise_append.1 h.sorted
    refine List.pairwise_append.2 ⟨hs₁, List.pairwise_cons.2 ⟨fun b hb => ?_, hs₂⟩, ?_⟩
    · exact hkey.trans_lt (habove b hb)
    · intro a ha b hb
      rcases List.mem_cons.1 hb with rfl | hb
      · exact (hbelow a ha).trans_eq hkey.symm
      · exact hs₁₂ a ha b hb
  · rw [linked_append_inserted]
    rcases List.mem_append.1 ha with ha | ha
    · exact Or.inl (h.linked a (List.mem_append_left _ ha))
    · rcases List.mem_cons.1 ha with rfl | ha
      · exact Or.inr rfl
      · exact Or.inl (h.linked a (List.mem_append_right _ ha))
  · rw [hmark] at hm
    rcases linked_append_inserted.1 ha with ha | rfl
    · exact hsub (h.unmarked a ha hm)
    · exact hmemn
  · rw [linked_append_inserted]
    rw [Memory.ptr_write] at hab
    rcases eq_or_ne (some a) p with hap | hap
    · rw [hap, Function.update_self] at hab
      exact Or.inr (Option.some.inj hab).symm
    · rw [Function.update_of_ne hap] at hab
      rcases linked_append_inserted.1 ha with ha | rfl
      · exact Or.inl (h.closed a b ha hab)
      · rw [hnode.1, hqnext] at hab
        exact Or.inl (h.linked b (List.mem_append_right _ (List.mem_of_mem_head? hab)))
  · rcases linked_append_inserted.1 ha with ha | rfl
    · exact h.fresh a ha
    · exact hfresh
  · constructor
    · rintro (rfl | ⟨a, ha, hak⟩)
      · exact ⟨n, hmemn, (hmark n).trans hnode.2, hkey⟩
      · exact ⟨a, hsub ha, (hmark a).trans hak.1, hak.2⟩
    · rintro ⟨a, ha, ham, hak⟩
      rw [hmark] at ham
      rcases List.mem_append.1 ha with ha | ha
      · exact Or.inr ⟨a, List.mem_append_left _ ha, ham, hak⟩
      · rcases List.mem_cons.1 ha with rfl | ha
        · exact Or.inl (hak.symm.trans hkey)
        · exact Or.inr ⟨a, List.mem_append_right _ ha, ham, hak⟩

/-- **A node is marked.** -/
theorem mark {q : Option ℕ} {t t' : τ} (ha : Linked log a)
    (hword : m.word (some a) = ⟨q, false, t⟩) (hkey : m.key a = k) :
    Shared (m.write (some a) ⟨q, true, t'⟩) (log ++ [⟨.removed, a, k⟩]) nodes := by
  have hmem : a ∈ nodes := h.unmarked a ha (by rw [Memory.marked, hword])
  have hptr : (m.write (some a) ⟨q, true, t'⟩).ptr = m.ptr := by
    rw [Memory.ptr_write]
    refine (Function.update_eq_self_iff).2 ?_
    rw [Memory.ptr, hword]
  have hself : (m.write (some a) ⟨q, true, t'⟩).marked a = true := by
    rw [Memory.marked, Memory.word_write_self]
  have hother {b : ℕ} (hb : b ≠ a) :
      (m.write (some a) ⟨q, true, t'⟩).marked b = m.marked b := by
    rw [Memory.marked, Memory.word_write_of_ne fun hba => hb (Option.some.inj hba), Memory.marked]
  refine
    { chain := hptr ▸ h.chain, sorted := h.sorted
      linked := fun b hb => linked_append_removed.2 (h.linked b hb)
      unmarked := fun b hb hm => ?_
      closed := fun b d hb hbd =>
        linked_append_removed.2 (h.closed b d (linked_append_removed.1 hb) (hptr ▸ hbd))
      fresh := fun b hb => h.fresh b (linked_append_removed.1 hb)
      recorded := (h.recorded.removed ⟨a, hmem, by rw [Memory.marked, hword], hkey⟩).congr
        fun k' => ?_ }
  · have hne : b ≠ a := by
      rintro rfl
      exact absurd (hm.symm.trans hself) (by decide)
    exact h.unmarked b (linked_append_removed.1 hb) ((hother hne).symm.trans hm)
  · constructor
    · rintro ⟨hk, b, hb, hbm, hbk⟩
      have hne : b ≠ a := by
        rintro rfl
        exact hk (hbk.symm.trans hkey)
      exact ⟨b, hb, (hother hne).trans hbm, hbk⟩
    · rintro ⟨b, hb, hbm, hbk⟩
      have hne : b ≠ a := by
        rintro rfl
        exact absurd (hbm.symm.trans hself) (by decide)
      refine ⟨fun hk => hne (h.eq_of_key hb hmem ?_), b, hb, (hother hne).symm.trans hbm, hbk⟩
      exact (hbk.trans hk).trans hkey.symm

/-- **A marked node is unlinked.** -/
theorem unlink {q : Option ℕ} {t t' : τ} (hp : Below m log k p)
    (hword : m.word p = ⟨some a, false, t⟩) (hmark : m.marked a = true) (hq : m.ptr (some a) = q) :
    ∃ nodes', Shared (m.write p ⟨q, false, t'⟩) log nodes' := by
  obtain ⟨l₁, l₂, rfl, hlast, hnext, -⟩ := h.exists_append hp (by rw [hword])
  rw [Memory.ptr, hword] at hnext
  rcases l₂ with - | ⟨c, l₂⟩
  · exact absurd hnext (by simp)
  obtain rfl : a = c := by simpa using hnext
  have hqnext : q = l₂.head? := by
    rw [← hq]
    exact h.chain.drop.2.next_eq
  have hmarks (b : ℕ) : (m.write p ⟨q, false, t'⟩).marked b = m.marked b := by
    rcases eq_or_ne (some b) p with hbp | hbp
    · rw [Memory.marked, hbp, Memory.word_write_self, Memory.marked, hbp, hword]
    · rw [Memory.marked, Memory.word_write_of_ne hbp, Memory.marked]
  have hsub {b : ℕ} : b ∈ l₁ ++ l₂ → b ∈ l₁ ++ a :: l₂ := by
    rw [List.mem_append, List.mem_append, List.mem_cons]
    exact fun hb => hb.imp_right Or.inr
  have hback {b : ℕ} (hb : b ∈ l₁ ++ a :: l₂) (hm : m.marked b = false) : b ∈ l₁ ++ l₂ := by
    rw [List.mem_append, List.mem_cons] at hb
    rw [List.mem_append]
    refine hb.imp_right fun hor => hor.resolve_left ?_
    rintro rfl
    exact absurd (hm.symm.trans hmark) (by decide)
  refine ⟨l₁ ++ l₂,
    { h with
      chain := ?_, sorted := ?_, linked := fun b hb => h.linked b (hsub hb)
      unmarked := fun b hb hm => ?_, closed := fun b d hb hbd => ?_
      recorded := h.recorded.congr fun k' => ?_ }⟩
  · rw [Memory.ptr_write, ← hlast, hqnext]
    exact h.chain.unlink h.nodup_places
  · refine h.sorted.sublist ?_
    exact List.Sublist.append_left (List.sublist_cons_self a l₂) l₁
  · rw [hmarks] at hm
    exact hback (h.unmarked b hb hm) hm
  · rw [Memory.ptr_write] at hbd
    rcases eq_or_ne (some b) p with hbp | hbp
    · rw [hbp, Function.update_self, hqnext] at hbd
      have hd : d ∈ l₂ := List.mem_of_mem_head? hbd
      exact h.linked d (List.mem_append_right _ (List.mem_cons_of_mem _ hd))
    · rw [Function.update_of_ne hbp] at hbd
      exact h.closed b d hb hbd
  · refine exists_congr fun b => ?_
    rw [hmarks]
    exact ⟨fun hb => ⟨hback hb.1 hb.2.1, hb.2⟩, fun hb => ⟨hsub hb.1, hb.2⟩⟩

end Shared

end Concurrent

end CppEtudes
