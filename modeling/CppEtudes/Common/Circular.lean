import CppEtudes.Common.Links

/-!
# Circular lists

A doubly linked list as it lies in memory, closed by a sentinel: the place
`none` is the sentinel and `some a` the node `a`. A link is null where it
is `none`. The nodes are met in one order from the sentinel on, and in the
opposite order backwards.
-/

namespace CppEtudes

/-- Both links of every place. -/
structure Circular (α : Type) where
  next : Option α → Option (Option α)
  prev : Option α → Option (Option α)

namespace Circular

open Links

variable {α : Type}

/-- **A place is unlinked**, in the order of the writes; a null pointer is
not followed. -/
def remove [DecidableEq α] (r : Circular α) (e : Option α) : Option (Circular α) := do
  let next ← r.next e
  let r := { r with prev := Function.update r.prev next (r.prev e) }
  let prev ← r.prev e
  let r := { r with next := Function.update r.next prev (r.next e) }
  return { next := Function.update r.next e none, prev := Function.update r.prev e none }

/-- Two places that link to each other. -/
def Linked (r : Circular α) (p q : Option α) : Prop := r.next p = some q ∧ r.prev q = some p

/-- The nodes from the place `p` on, back to the sentinel. -/
def Segment (r : Circular α) : Option α → List α → Prop
  | p, [] => r.Linked p none
  | p, a :: l => r.Linked p (some a) ∧ r.Segment (some a) l

/-- **The nodes of a circular list.** -/
structure Holds (r : Circular α) (l : List α) : Prop where
  segment : r.Segment none l
  nodup : l.Nodup

variable {r r' : Circular α} {p : Option α} {a : α} {l l₁ l₂ : List α}

theorem Segment.linked (h : r.Segment p l) : r.Linked p l.head? := by
  rcases l with - | ⟨a, l⟩
  · exact h
  · exact h.1

theorem Segment.drop (h : r.Segment p (l₁ ++ l₂)) : r.Segment (last p l₁) l₂ := by
  induction l₁ generalizing p with
  | nil => exact h
  | cons a l₁ ih => exact ih h.2

/-- The node behind a part of the list, or the sentinel. -/
theorem Holds.next_last (h : r.Holds (l₁ ++ l₂)) : r.next (last none l₁) = some l₂.head? :=
  h.segment.drop.linked.1

theorem Segment.congr (h : r.Segment p l) (hnext : ∀ x ∈ p :: l.map some, r'.next x = r.next x)
    (hprev : ∀ x ∈ none :: l.map some, r'.prev x = r.prev x) : r'.Segment p l := by
  induction l generalizing p with
  | nil =>
    exact ⟨(hnext p List.mem_cons_self).trans h.1, (hprev none List.mem_cons_self).trans h.2⟩
  | cons a l ih =>
    refine ⟨⟨(hnext p List.mem_cons_self).trans h.1.1, ?_⟩,
      ih h.2 (fun x hx => hnext x (List.mem_cons_of_mem _ hx)) fun x hx => hprev x ?_⟩
    · exact (hprev (some a) (List.mem_cons_of_mem _ List.mem_cons_self)).trans h.1.2
    · rcases List.mem_cons.1 hx with rfl | hx
      · exact List.mem_cons_self
      · exact List.mem_cons_of_mem _ (List.mem_cons_of_mem _ hx)

/-- **The neighbours of a node are linked**, and nothing else changes. -/
theorem Segment.unlink (h : r.Segment p (l₁ ++ a :: l₂))
    (hnd : (p :: (l₁ ++ a :: l₂).map some).Nodup)
    (hlast : r'.next (last p l₁) = some l₂.head?) (hhead : r'.prev l₂.head? = some (last p l₁))
    (hnext : ∀ x, x ≠ last p l₁ → x ≠ some a → r'.next x = r.next x)
    (hprev : ∀ x, x ≠ l₂.head? → x ≠ some a → r'.prev x = r.prev x) :
    r'.Segment p (l₁ ++ l₂) := by
  induction l₁ generalizing p with
  | nil =>
    rw [List.nil_append, List.map_cons, List.nodup_cons, List.nodup_cons, List.mem_cons, not_or] at hnd
    obtain ⟨⟨-, hp⟩, ha, hnd⟩ := hnd
    rcases l₂ with - | ⟨b, l₂⟩
    · exact ⟨hlast, hhead⟩
    · refine ⟨⟨hlast, hhead⟩, h.2.2.congr (fun x hx => ?_) fun x hx => ?_⟩
      · refine hnext x ?_ ?_
        · rintro rfl
          exact hp hx
        · rintro rfl
          exact ha hx
      · rw [List.map_cons, List.nodup_cons] at hnd
        rw [List.map_cons, List.mem_cons, not_or] at ha
        refine hprev x ?_ ?_
        · rintro rfl
          rcases List.mem_cons.1 hx with hx | hx
          · exact nomatch hx
          · exact hnd.1 hx
        · rintro rfl
          rcases List.mem_cons.1 hx with hx | hx
          · exact nomatch hx
          · exact ha.2 hx
  | cons x l₁ ih =>
    rw [List.cons_append, List.map_cons, List.nodup_cons] at hnd
    have hx := (List.nodup_cons.1 hnd.2).1
    refine ⟨⟨(hnext p ?_ ?_).trans h.1.1, (hprev (some x) ?_ ?_).trans h.1.2⟩,
      ih h.2 hnd.2 hlast hhead hnext⟩
    · intro heq
      refine hnd.1 (heq ▸ List.mem_cons.2 ?_)
      rcases List.mem_cons.1 (last_mem (p := some x) (l := l₁)) with heq | hmem
      · exact .inl heq
      · rw [List.map_append]
        exact .inr (List.mem_append_left _ hmem)
    · rintro rfl
      exact hnd.1 (List.mem_cons_of_mem _ (List.mem_map_of_mem (by simp)))
    · intro heq
      refine hx (List.mem_map_of_mem (List.mem_append_right _ (List.mem_cons_of_mem _ ?_)))
      exact List.mem_of_head? heq.symm
    · intro heq
      exact hx (heq ▸ List.mem_map_of_mem (by simp))

/-- **A node is removed.** -/
theorem Holds.remove [DecidableEq α] (h : r.Holds (l₁ ++ a :: l₂)) :
    ∃ r', r.remove (some a) = some r' ∧ r'.Holds (l₁ ++ l₂) := by
  have hdrop := h.segment.drop
  have hnext : r.next (some a) = some l₂.head? := hdrop.2.linked.1
  have hprev : r.prev (some a) = some (last none l₁) := hdrop.1.2
  have hnd : (none :: (l₁ ++ a :: l₂).map some).Nodup :=
    Chain.nodup_places h.nodup fun _ _ => (Option.some_ne_none _).symm
  obtain ⟨hnd₁, hnd₂, hdisj⟩ := List.nodup_append.1 h.nodup
  have hlast : last none l₁ ≠ some a := by
    intro heq
    have hmem := heq ▸ last_mem (p := none) (l := l₁)
    rcases List.mem_cons.1 hmem with heq | hmem
    · exact nomatch heq
    · obtain ⟨b, hb, heq⟩ := List.mem_map.1 hmem
      exact hdisj b hb a List.mem_cons_self (Option.some.inj heq)
  have hhead : l₂.head? ≠ some a := fun heq =>
    (List.nodup_cons.1 hnd₂).1 (List.mem_of_head? heq)
  refine ⟨_, by simp only [Circular.remove, hnext, hprev, Function.update_of_ne hhead.symm,
    Option.bind_eq_bind, Option.bind_some]; rfl, h.segment.unlink hnd ?_ ?_ ?_ ?_,
    List.nodup_append.2 ⟨hnd₁, (List.nodup_cons.1 hnd₂).2, fun x hx y hy => ?_⟩⟩
  · dsimp only
    rw [Function.update_of_ne hlast, Function.update_self]
  · dsimp only
    rw [Function.update_of_ne hhead, Function.update_self]
  · intro x hx hxa
    dsimp only
    rw [Function.update_of_ne hxa, Function.update_of_ne hx]
  · intro x hx hxa
    dsimp only
    rw [Function.update_of_ne hxa, Function.update_of_ne hx]
  · exact hdisj x hx y (List.mem_cons_of_mem _ hy)

end Circular

end CppEtudes
