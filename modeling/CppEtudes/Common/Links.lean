import Mathlib.Data.List.Nodup
import Mathlib.Logic.Function.Basic

/-!
# Chains of links

A singly linked list as it lies in memory. A place holds a link: `none`
is the root and `some a` the link of the node `a`. The nodes that are
met from a place on form a chain, which ends at a link that is null. To
write one link is to replace what the chain has behind that place.
-/

namespace CppEtudes

namespace Links

variable {α : Type}

/-- The nodes met from the place `p` on. -/
def Chain (next : Option α → Option α) : Option α → List α → Prop
  | p, [] => next p = none
  | p, a :: l => next p = some a ∧ Chain next (some a) l

/-- The place at which the nodes `l` behind `p` end. -/
def last (p : Option α) : List α → Option α
  | [] => p
  | a :: l => last (some a) l

variable {next next' : Option α → Option α} {p q : Option α} {a : α} {l l₁ l₂ l₃ : List α}

@[simp] theorem last_append : last p (l₁ ++ l₂) = last (last p l₁) l₂ := by
  induction l₁ generalizing p with
  | nil => rfl
  | cons a l₁ ih => exact ih

theorem last_mem : last p l ∈ p :: l.map some := by
  induction l generalizing p with
  | nil => exact List.mem_cons_self
  | cons a l ih => exact List.mem_cons_of_mem _ ih

namespace Chain

/-- A place starts one chain. -/
theorem unique (h : Chain next p l₁) (h' : Chain next p l₂) : l₁ = l₂ := by
  induction l₁ generalizing p l₂ with
  | nil =>
    rcases l₂ with - | ⟨b, l₂⟩
    · rfl
    · exact absurd (h.symm.trans h'.1) (by simp)
  | cons a l₁ ih =>
    rcases l₂ with - | ⟨b, l₂⟩
    · exact absurd (h'.symm.trans h.1) (by simp)
    · obtain rfl := Option.some.inj (h.1.symm.trans h'.1)
      rw [ih h.2 h'.2]

/-- The chain behind the place where a part of it ends. -/
theorem drop (h : Chain next p (l₁ ++ l₂)) : Chain next (last p l₁) l₂ := by
  induction l₁ generalizing p with
  | nil => exact h
  | cons a l₁ ih => exact ih h.2

theorem next_eq (h : Chain next p l) : next p = l.head? := by
  rcases l with - | ⟨a, l⟩
  · exact h
  · exact h.1

/-- A node of the chain parts it. -/
theorem exists_append_of_mem (h : Chain next p l) (ha : a ∈ l) :
    ∃ l₁ l₂, l = l₁ ++ a :: l₂ ∧ Chain next (some a) l₂ := by
  obtain ⟨l₁, l₂, rfl⟩ := List.append_of_mem ha
  exact ⟨l₁, l₂, rfl, h.drop.2⟩

/-- A node of the chain whose successor is known. -/
theorem exists_append_of_next (h : Chain next p l) (hq : q = p ∨ ∃ a ∈ l, q = some a) :
    ∃ l₁ l₂, l = l₁ ++ l₂ ∧ last p l₁ = q ∧ next q = l₂.head? := by
  rcases hq with rfl | ⟨a, ha, rfl⟩
  · exact ⟨[], l, rfl, rfl, h.next_eq⟩
  · obtain ⟨l₁, l₂, rfl, h₂⟩ := h.exists_append_of_mem ha
    exact ⟨l₁ ++ [a], l₂, by simp, by simp [last], h₂.next_eq⟩

/-- **A link is written**: what the chain had behind it is replaced, and
what is before it stays. -/
theorem replace (h : Chain next p (l₁ ++ l₂)) (hnd : (p :: l₁.map some).Nodup)
    (hsame : ∀ q ∈ p :: l₁.map some, q ≠ last p l₁ → next' q = next q)
    (h' : Chain next' (last p l₁) l₃) : Chain next' p (l₁ ++ l₃) := by
  induction l₁ generalizing p with
  | nil => exact h'
  | cons a l₁ ih =>
    rw [List.map_cons] at hnd
    have hp : p ≠ last (some a) l₁ := by
      intro hp
      exact (List.nodup_cons.1 hnd).1 (hp ▸ last_mem)
    refine ⟨(hsame p List.mem_cons_self hp).trans h.1, ih h.2 (List.nodup_cons.1 hnd).2 ?_ h'⟩
    exact fun q hq => hsame q (List.mem_cons_of_mem _ hq)

/-- Links away from the chain do not matter. -/
theorem congr (h : Chain next p l) (hsame : ∀ q ∈ p :: l.map some, next' q = next q) :
    Chain next' p l := by
  induction l generalizing p with
  | nil => exact (hsame p List.mem_cons_self).trans h
  | cons a l ih =>
    exact ⟨(hsame p List.mem_cons_self).trans h.1,
      ih h.2 fun q hq => hsame q (List.mem_cons_of_mem _ hq)⟩

/-- **Another place takes over a chain** by linking to its first node. -/
theorem retarget (h : Chain next p l) (hq : next' q = l.head?)
    (hsame : ∀ a ∈ l, next' (some a) = next (some a)) : Chain next' q l := by
  rcases l with - | ⟨a, l⟩
  · exact hq
  · refine ⟨hq, h.2.congr fun q hq => ?_⟩
    obtain ⟨b, hb, rfl⟩ := List.mem_map.1 (show q ∈ (a :: l).map some from hq)
    exact hsame b hb

/-- The places of distinct nodes behind a place that is none of theirs. -/
theorem nodup_places (hnd : l.Nodup) (hp : ∀ a ∈ l, p ≠ some a) : (p :: l.map some).Nodup := by
  refine List.nodup_cons.2 ⟨fun hmem => ?_, hnd.map fun _ _ => Option.some.inj⟩
  obtain ⟨a, ha, hpa⟩ := List.mem_map.1 hmem
  exact hp a ha hpa.symm

/-- Both sides of `congr`. -/
theorem congr_iff (hsame : ∀ q ∈ p :: l.map some, next' q = next q) :
    Chain next' p l ↔ Chain next p l :=
  ⟨fun h => h.congr fun q hq => (hsame q hq).symm, fun h => h.congr hsame⟩

variable [DecidableEq α]

/-- **A node is linked in** behind the place where `l₁` ends. -/
theorem link {n : α} (h : Chain next p (l₁ ++ l₂)) (hnd : (p :: (l₁ ++ l₂).map some).Nodup)
    (hn : ∀ q ∈ p :: (l₁ ++ l₂).map some, q ≠ some n) (hnext : next (some n) = l₂.head?) :
    Chain (Function.update next (last p l₁) (some n)) p (l₁ ++ n :: l₂) := by
  rw [List.map_append, ← List.cons_append] at hnd hn
  have hlast : last p l₁ ≠ some n := hn _ (List.mem_append_left _ last_mem)
  refine h.replace (List.nodup_append.1 hnd).1 (fun q _ hq => Function.update_of_ne hq _ _)
    ⟨Function.update_self .., ?_⟩
  have htail : Chain next (some n) l₂ := by
    have h₂ := h.drop
    rcases l₂ with - | ⟨b, l₂⟩
    · exact hnext
    · exact ⟨hnext, h₂.2⟩
  refine htail.congr fun q hq => Function.update_of_ne ?_ _ _
  rintro rfl
  rcases List.mem_cons.1 hq with hq | hq
  · exact hlast hq
  · exact (List.nodup_append.1 hnd).2.2 _ last_mem _ hq rfl

/-- **A node is unlinked**: the place before it takes over its link. -/
theorem unlink {c : α} (h : Chain next p (l₁ ++ c :: l₂))
    (hnd : (p :: (l₁ ++ c :: l₂).map some).Nodup) :
    Chain (Function.update next (last p l₁) l₂.head?) p (l₁ ++ l₂) := by
  rw [List.map_append, ← List.cons_append] at hnd
  obtain ⟨hnd₁, -, hdisj⟩ := List.nodup_append.1 hnd
  refine h.replace hnd₁ (fun q _ hq => Function.update_of_ne hq _ _) ?_
  have h₂ : Chain next (some c) l₂ := h.drop.2
  have hne (q : Option α) (hq : q ∈ (c :: l₂).map some) : q ≠ last p l₁ := by
    rintro rfl
    exact hdisj _ last_mem _ hq rfl
  rcases l₂ with - | ⟨b, l₂⟩
  · exact Function.update_self ..
  · refine ⟨Function.update_self .., h₂.2.congr fun q hq => Function.update_of_ne (hne q ?_) _ _⟩
    exact List.mem_cons_of_mem _ hq

end Chain

/-! ## Links that lead backwards -/

/-- Each node of a list links to a node behind it, or to none. -/
def Backward (next : Option α → Option α) : List α → Prop
  | [] => True
  | a :: l => (∀ b, next (some a) = some b → b ∈ l) ∧ Backward next l

theorem Backward.congr (h : Backward next l) (hsame : ∀ a ∈ l, next' (some a) = next (some a)) :
    Backward next' l := by
  induction l with
  | nil => trivial
  | cons a l ih =>
    refine ⟨fun b hb => h.1 b ?_, ih h.2 fun b hb => hsame b (List.mem_cons_of_mem _ hb)⟩
    rw [← hsame a List.mem_cons_self, hb]

/-- **A chain keeps their order**, from a place that links to one of
them. -/
theorem Backward.sublist (h : Backward next l) (hp : ∀ b, next p = some b → b ∈ l)
    (hchain : Chain next p l₁) : l₁.Sublist l := by
  induction l generalizing p l₁ with
  | nil =>
    rcases l₁ with - | ⟨b, l₁⟩
    · exact List.Sublist.refl _
    · exact absurd (hp b hchain.1) List.not_mem_nil
  | cons a l ih =>
    rcases l₁ with - | ⟨b, l₁⟩
    · exact List.nil_sublist _
    · rcases List.mem_cons.1 (hp b hchain.1) with rfl | hb
      · exact (ih h.2 h.1 hchain.2).cons_cons b
      · refine (ih h.2 (fun b' hb' => ?_) hchain).cons a
        obtain rfl := Option.some.inj (hchain.1.symm.trans hb')
        exact hb

end Links

end CppEtudes
