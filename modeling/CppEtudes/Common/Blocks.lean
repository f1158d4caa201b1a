import Mathlib.Data.Nat.Notation
import Mathlib.Tactic.Common

/-!
# Blocks of one size

A list is cut at any position up to its length. Cut into as many whole
blocks as there are, it leaves a remainder shorter than a block, behind
them or in front.
-/

namespace CppEtudes

namespace Blocks

variable {α : Type*}

theorem exists_append {l : List α} {n : ℕ} (h : n ≤ l.length) :
    ∃ l₁ l₂, l = l₁ ++ l₂ ∧ l₁.length = n :=
  ⟨l.take n, l.drop n, (List.take_append_drop n l).symm, by
    rw [List.length_take, Nat.min_eq_left h]⟩

/-- **Whole blocks first.** -/
theorem exists_whole_append (l : List α) (size : ℕ) :
    ∃ whole tail, l = whole ++ tail ∧ whole.length = l.length / size * size ∧
      tail.length = l.length % size := by
  obtain ⟨whole, tail, hl, hwhole⟩ := exists_append (Nat.div_mul_le_self l.length size)
  refine ⟨whole, tail, hl, hwhole, ?_⟩
  have hlen : l.length = whole.length + tail.length := by rw [hl, List.length_append]
  have hdiv := Nat.div_add_mod' l.length size
  omega

/-- **Whole blocks at the end.** -/
theorem exists_append_whole (l : List α) (size : ℕ) :
    ∃ tail whole, l = tail ++ whole ∧ tail.length = l.length % size ∧
      whole.length = l.length / size * size := by
  obtain ⟨tail, whole, hl, htail⟩ := exists_append (Nat.mod_le l.length size)
  refine ⟨tail, whole, hl, htail, ?_⟩
  have hlen : l.length = tail.length + whole.length := by rw [hl, List.length_append]
  have hdiv := Nat.div_add_mod' l.length size
  omega

end Blocks

end CppEtudes
