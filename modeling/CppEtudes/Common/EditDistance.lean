import Mathlib.Data.Nat.Basic
import Mathlib.Order.Bounds.Defs
import Mathlib.Tactic.Common

/-!
# Edit distance

The fewest insertions, deletions and substitutions that turn one sequence
into another. Edits may touch any place in any order (`Edits`); they can
be sorted into an alignment that goes through both sequences once
(`Align`), and the recursion over the heads finds the cheapest of those,
without a comparison where the heads are equal (`distance`).
-/

namespace CppEtudes

namespace Levenshtein

variable {α : Type*}

/-- One insertion, deletion or substitution. -/
inductive Step : List α → List α → Prop
  | insert (u : List α) (c : α) (v : List α) : Step (u ++ v) (u ++ c :: v)
  | delete (u : List α) (c : α) (v : List α) : Step (u ++ c :: v) (u ++ v)
  | subst (u : List α) (c d : α) (v : List α) : Step (u ++ c :: v) (u ++ d :: v)

/-- **A number of edits that turn one sequence into another.** -/
inductive Edits : ℕ → List α → List α → Prop
  | done (a : List α) : Edits 0 a a
  | step {n : ℕ} {a b c : List α} : Step a b → Edits n b c → Edits (n + 1) a c

/-- An alignment of two sequences, with the number of places where they
differ. -/
inductive Align : ℕ → List α → List α → Prop
  | nil : Align 0 [] []
  | keep {n : ℕ} {a b : List α} (c : α) : Align n a b → Align n (c :: a) (c :: b)
  | subst {n : ℕ} {a b : List α} (c d : α) : Align n a b → Align (n + 1) (c :: a) (d :: b)
  | delete {n : ℕ} {a b : List α} (c : α) : Align n a b → Align (n + 1) (c :: a) b
  | insert {n : ℕ} {a b : List α} (c : α) : Align n a b → Align (n + 1) a (c :: b)

section Edits

variable {n m : ℕ} {a b c : List α}

theorem Step.cons (x : α) (h : Step a b) : Step (x :: a) (x :: b) := by
  cases h with
  | insert u c v => exact .insert (x :: u) c v
  | delete u c v => exact .delete (x :: u) c v
  | subst u c d v => exact .subst (x :: u) c d v

theorem Edits.cons (x : α) (h : Edits n a b) : Edits n (x :: a) (x :: b) := by
  induction h with
  | done a => exact .done _
  | step hs _ ih => exact .step (hs.cons x) ih

/-- Edits one after the other. -/
theorem Edits.trans (h : Edits n a b) (h' : Edits m b c) : Edits (n + m) a c := by
  induction h with
  | done a => rwa [Nat.zero_add]
  | step hs _ ih =>
    rw [Nat.succ_add]
    exact .step hs (ih h')

end Edits

/-! ## Alignments -/

section Align

variable {n m : ℕ} {a b c u v t : List α}

theorem Align.symm (h : Align n a b) : Align n b a := by
  induction h with
  | nil => exact .nil
  | keep c _ ih => exact .keep c ih
  | subst c d _ ih => exact .subst d c ih
  | delete c _ ih => exact .insert c ih
  | insert c _ ih => exact .delete c ih

theorem align_self (a : List α) : Align 0 a a := by
  induction a with
  | nil => exact .nil
  | cons c a ih => exact .keep c ih

theorem align_nil_right (a : List α) : Align a.length a [] := by
  induction a with
  | nil => exact .nil
  | cons c a ih => exact .delete c ih

theorem Align.append (h : Align n a b) (h' : Align m u v) : Align (n + m) (a ++ u) (b ++ v) := by
  induction h with
  | nil => rwa [Nat.zero_add]
  | keep c _ ih => exact .keep c ih
  | subst c d _ ih => rw [Nat.succ_add]; exact .subst c d ih
  | delete c _ ih => rw [Nat.succ_add]; exact .delete c ih
  | insert c _ ih => rw [Nat.succ_add]; exact .insert c ih

theorem Align.reverse (h : Align n a b) : Align n a.reverse b.reverse := by
  induction h with
  | nil => exact .nil
  | keep c _ ih =>
    rw [List.reverse_cons, List.reverse_cons]
    exact ih.append (align_self [c])
  | subst c d _ ih =>
    rw [List.reverse_cons, List.reverse_cons]
    exact ih.append (.subst c d .nil)
  | delete c _ ih =>
    rw [List.reverse_cons]
    have h := ih.append (.delete c .nil)
    rwa [List.append_nil] at h
  | insert c _ ih =>
    rw [List.reverse_cons]
    have h := ih.append (.insert c .nil)
    rwa [List.append_nil] at h

theorem Align.length_le (h : Align n a b) : b.length ≤ a.length + n := by
  induction h with
  | nil => exact Nat.le_refl 0
  | keep c _ ih => simp only [List.length_cons]; omega
  | subst c d _ ih => simp only [List.length_cons]; omega
  | delete c _ ih => simp only [List.length_cons]; omega
  | insert c _ ih => simp only [List.length_cons]; omega

/-- An alignment can be cut where the first sequence is. -/
theorem Align.split (h : Align n (u ++ v) t) :
    ∃ n₁ n₂ t₁ t₂, n = n₁ + n₂ ∧ t = t₁ ++ t₂ ∧ Align n₁ u t₁ ∧ Align n₂ v t₂ := by
  generalize huv : u ++ v = w at h
  induction h generalizing u with
  | nil =>
    obtain ⟨rfl, rfl⟩ := List.append_eq_nil_iff.1 huv
    exact ⟨0, 0, [], [], rfl, rfl, .nil, .nil⟩
  | @keep n a b c h ih =>
    cases u with
    | nil =>
      obtain rfl : v = c :: a := huv
      exact ⟨0, _, [], _, (Nat.zero_add _).symm, rfl, .nil, .keep c h⟩
    | cons x u =>
      obtain ⟨rfl, htail⟩ := List.cons.inj huv
      obtain ⟨n₁, n₂, t₁, t₂, rfl, rfl, h₁, h₂⟩ := ih htail
      exact ⟨n₁, n₂, x :: t₁, t₂, rfl, rfl, .keep x h₁, h₂⟩
  | @subst n a b c d h ih =>
    cases u with
    | nil =>
      obtain rfl : v = c :: a := huv
      exact ⟨0, _, [], _, (Nat.zero_add _).symm, rfl, .nil, .subst c d h⟩
    | cons x u =>
      obtain ⟨rfl, htail⟩ := List.cons.inj huv
      obtain ⟨n₁, n₂, t₁, t₂, rfl, rfl, h₁, h₂⟩ := ih htail
      exact ⟨n₁ + 1, n₂, d :: t₁, t₂, by omega, rfl, .subst x d h₁, h₂⟩
  | @delete n a b c h ih =>
    cases u with
    | nil =>
      obtain rfl : v = c :: a := huv
      exact ⟨0, _, [], _, (Nat.zero_add _).symm, rfl, .nil, .delete c h⟩
    | cons x u =>
      obtain ⟨rfl, htail⟩ := List.cons.inj huv
      obtain ⟨n₁, n₂, t₁, t₂, rfl, rfl, h₁, h₂⟩ := ih htail
      exact ⟨n₁ + 1, n₂, t₁, t₂, by omega, rfl, .delete x h₁, h₂⟩
  | @insert n a b c h ih =>
    obtain ⟨n₁, n₂, t₁, t₂, rfl, rfl, h₁, h₂⟩ := ih huv
    exact ⟨n₁ + 1, n₂, c :: t₁, t₂, by omega, rfl, .insert c h₁, h₂⟩

/-- What stands in for a sequence `x :: a` wherever `x` is aligned or
deleted costs one more place at most. -/
theorem Align.of_head {x : α} {w : List α} (h : Align n (x :: a) t)
    (hat : ∀ c m t, Align m a t → Align (m + 1) w (c :: t))
    (hdelete : ∀ m t, Align m a t → ∃ m' ≤ m + 2, Align m' w t) : ∃ m ≤ n + 1, Align m w t := by
  generalize hxa : x :: a = v at h
  induction h with
  | nil => cases hxa
  | keep c h _ =>
    obtain ⟨rfl, rfl⟩ := List.cons.inj hxa
    exact ⟨_, Nat.le_refl _, hat _ _ _ h⟩
  | subst c d h _ =>
    obtain ⟨rfl, rfl⟩ := List.cons.inj hxa
    exact ⟨_, by omega, hat d _ _ h⟩
  | delete c h _ =>
    obtain ⟨rfl, rfl⟩ := List.cons.inj hxa
    exact hdelete _ _ h
  | insert c _ ih =>
    obtain ⟨m, hm, h⟩ := ih hxa
    exact ⟨m + 1, by omega, .insert c h⟩

/-- Without its head a sequence is aligned at one more place at most. -/
theorem Align.of_cons_left {x : α} (h : Align n (x :: a) t) : ∃ m ≤ n + 1, Align m a t :=
  h.of_head (fun c _ _ h => .insert c h) fun m _ h => ⟨m, by omega, h⟩

/-- Equal heads need not be compared with anything else. -/
theorem Align.of_cons_cons {x : α} (h : Align n (x :: a) (x :: b)) : ∃ m ≤ n, Align m a b := by
  cases h with
  | keep c h => exact ⟨n, Nat.le_refl n, h⟩
  | subst c d h => exact ⟨_, Nat.le_succ _, h⟩
  | delete c h =>
    obtain ⟨m, hm, h⟩ := h.symm.of_cons_left
    exact ⟨m, hm, h.symm⟩
  | insert c h => exact h.of_cons_left

/-- With another head as well. -/
theorem Align.replace_head {x : α} (y : α) (h : Align n (x :: a) t) :
    ∃ m ≤ n + 1, Align m (y :: a) t :=
  h.of_head (fun c _ _ h => .subst y c h) fun m _ h => ⟨m + 1, by omega, .delete y h⟩

/-- An edit before costs one place at most. -/
theorem Align.of_step (hs : Step a b) (h : Align n b t) : ∃ m ≤ n + 1, Align m a t := by
  cases hs with
  | insert u c v =>
    obtain ⟨n₁, n₂, t₁, t₂, rfl, rfl, h₁, h₂⟩ := h.split
    obtain ⟨m, hm, hv⟩ := h₂.of_cons_left
    exact ⟨n₁ + m, by omega, h₁.append hv⟩
  | delete u c v =>
    obtain ⟨n₁, n₂, t₁, t₂, rfl, rfl, h₁, h₂⟩ := h.split
    exact ⟨n₁ + (n₂ + 1), by omega, h₁.append (.delete c h₂)⟩
  | subst u c d v =>
    obtain ⟨n₁, n₂, t₁, t₂, rfl, rfl, h₁, h₂⟩ := h.split
    obtain ⟨m, hm, hv⟩ := h₂.replace_head c
    exact ⟨n₁ + m, by omega, h₁.append hv⟩

/-- **Edits can be sorted into an alignment.** -/
theorem Edits.exists_align (h : Edits n a b) : ∃ m ≤ n, Align m a b := by
  induction h with
  | done a => exact ⟨0, Nat.le_refl 0, align_self a⟩
  | step hs _ ih =>
    obtain ⟨m, hm, h⟩ := ih
    obtain ⟨k, hk, hstep⟩ := Align.of_step hs h
    exact ⟨k, by omega, hstep⟩

/-- The differences of an alignment are edits. -/
theorem Align.edits (h : Align n a b) : Edits n a b := by
  induction h with
  | nil => exact .done []
  | keep c _ ih => exact ih.cons c
  | @subst n a b c d _ ih => exact .step (.subst [] c d a) (ih.cons d)
  | @delete n a b c _ ih => exact .step (.delete [] c a) ih
  | @insert n a b c _ ih => exact .step (.insert [] c a) (ih.cons c)

end Align

/-! ## The distance -/

section Dist

variable [DecidableEq α]

/-- **The distance**, by the heads of the sequences. -/
def distance : List α → List α → ℕ
  | [], b => b.length
  | a, [] => a.length
  | x :: a, y :: b =>
    if x = y then distance a b
    else 1 + min (min (distance a (y :: b)) (distance (x :: a) b)) (distance a b)

variable {n : ℕ} {a b : List α}

theorem distance_nil_right (a : List α) : distance a [] = a.length := by
  cases a <;> simp [distance]

theorem align_distance (a b : List α) : Align (distance a b) a b := by
  induction a, b using distance.induct with
  | case1 b =>
    rw [distance]
    exact (align_nil_right b).symm
  | case2 a _ =>
    rw [distance_nil_right]
    exact align_nil_right a
  | case3 a x b ih =>
    rw [distance, if_pos rfl]
    exact .keep x ih
  | case4 x a y b hne ihleft ihright ih =>
    rw [distance, if_neg hne, Nat.add_comm]
    -- the cheapest of the three neighbours
    rcases Nat.le_total (min (distance a (y :: b)) (distance (x :: a) b)) (distance a b) with h | h
    · rw [Nat.min_eq_left h]
      rcases Nat.le_total (distance a (y :: b)) (distance (x :: a) b) with h' | h'
      · rw [Nat.min_eq_left h']
        exact .delete x ihleft
      · rw [Nat.min_eq_right h']
        exact .insert y ihright
    · rw [Nat.min_eq_right h]
      exact .subst x y ih

/-- No alignment differs at fewer places. -/
theorem distance_le_of_align (h : Align n a b) : distance a b ≤ n := by
  induction a, b using distance.induct generalizing n with
  | case1 b =>
    rw [distance]
    simpa using h.length_le
  | case2 a _ =>
    rw [distance_nil_right]
    simpa using h.symm.length_le
  | case3 a x b ih =>
    rw [distance, if_pos rfl]
    obtain ⟨m, hm, h⟩ := h.of_cons_cons
    exact Nat.le_trans (ih h) hm
  | case4 x a y b hne ihleft ihright ih =>
    rw [distance, if_neg hne]
    cases h with
    | keep c h => exact absurd rfl hne
    | subst c d h =>
      have := ih h
      omega
    | delete c h =>
      have := ihleft h
      omega
    | insert c h =>
      have := ihright h
      omega

/-- **The distance is the least number of edits.** -/
theorem isLeast_distance (a b : List α) : IsLeast {n | Edits n a b} (distance a b) := by
  refine ⟨(align_distance a b).edits, fun n hn => ?_⟩
  obtain ⟨m, hm, h⟩ := Edits.exists_align hn
  exact Nat.le_trans (distance_le_of_align h) hm

theorem distance_comm (a b : List α) : distance a b = distance b a :=
  Nat.le_antisymm (distance_le_of_align (align_distance b a).symm)
    (distance_le_of_align (align_distance a b).symm)

theorem distance_reverse (a b : List α) : distance a.reverse b.reverse = distance a b := by
  refine Nat.le_antisymm (distance_le_of_align (align_distance a b).reverse) ?_
  have h := (align_distance a.reverse b.reverse).reverse
  rw [List.reverse_reverse, List.reverse_reverse] at h
  exact distance_le_of_align h

theorem distance_triangle (a b c : List α) : distance a c ≤ distance a b + distance b c :=
  (isLeast_distance a c).2 ((align_distance a b).edits.trans (align_distance b c).edits)

end Dist

end Levenshtein

end CppEtudes
