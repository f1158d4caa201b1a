import Mathlib.Data.Nat.Notation
import Mathlib.Tactic.Common

/-!
# Enough fuel

A loop without a bound of its own is run with some fuel, and has no
result when that is used up. It returns `x` if it does so from some fuel
on; returning goes along with sequencing.
-/

namespace CppEtudes

variable {α β : Type}

/-- **With enough fuel**, `f` has the result `x`. -/
def Returns (f : ℕ → Option α) (x : α) : Prop := ∃ n, ∀ fuel, n ≤ fuel → f fuel = some x

namespace Returns

variable {f f' : ℕ → Option α} {x : α}

theorem const (x : α) : Returns (fun _ => some x) x := ⟨0, fun _ _ => rfl⟩

/-- One round more. -/
theorem succ (h : Returns f x) (hf : ∀ fuel, f' (fuel + 1) = f fuel) : Returns f' x := by
  obtain ⟨n, hn⟩ := h
  refine ⟨n + 1, fun fuel hfuel => ?_⟩
  obtain ⟨k, rfl⟩ : ∃ k, fuel = k + 1 := ⟨fuel - 1, by omega⟩
  rw [hf]
  exact hn k (by omega)

theorem bind {g : α → ℕ → Option β} {y : β} (h : Returns f x) (hg : Returns (g x) y) :
    Returns (fun fuel => (f fuel).bind fun a => g a fuel) y := by
  obtain ⟨n, hn⟩ := h
  obtain ⟨k, hk⟩ := hg
  refine ⟨n + k, fun fuel hfuel => ?_⟩
  dsimp only
  rw [hn fuel (by omega), Option.bind_some]
  exact hk fuel (by omega)

theorem map {g : α → β} (h : Returns f x) : Returns (fun fuel => (f fuel).map g) (g x) := by
  obtain ⟨n, hn⟩ := h
  refine ⟨n, fun fuel hfuel => ?_⟩
  dsimp only
  rw [hn fuel hfuel, Option.map_some]

end Returns

/-- **Some rounds** of a loop lead from one state to another. -/
def Leads {σ : Type*} (f : ℕ → σ → Option α) (s s' : σ) : Prop :=
  ∃ n, ∀ fuel, f (fuel + n) s = f fuel s'

namespace Leads

variable {σ : Type*} {f : ℕ → σ → Option α} {s s₁ s₂ : σ}

theorem single (h : ∀ fuel, f (fuel + 1) s = f fuel s₁) : Leads f s s₁ := ⟨1, h⟩

theorem trans (h : Leads f s s₁) (h' : Leads f s₁ s₂) : Leads f s s₂ := by
  obtain ⟨n, hn⟩ := h
  obtain ⟨k, hk⟩ := h'
  refine ⟨k + n, fun fuel => ?_⟩
  rw [← Nat.add_assoc, hn, hk]

/-- A loop returns what it returns from a later state. -/
theorem returns (h : Leads f s s₁) {x : α} (h' : Returns (fun fuel => f fuel s₁) x) :
    Returns (fun fuel => f fuel s) x := by
  obtain ⟨n, hn⟩ := h
  obtain ⟨k, hk⟩ := h'
  refine ⟨k + n, fun fuel hfuel => ?_⟩
  obtain ⟨m, rfl⟩ : ∃ m, fuel = m + n := ⟨fuel - n, by omega⟩
  exact (hn m).trans (hk m (by omega))

end Leads

/-- A loop over a list has a result from the level on from which all its
rounds have. -/
theorem exists_mapM {f : ℕ → α → Option β} {n : ℕ} (l : List α)
    (h : ∀ a ∈ l, ∃ b, ∀ fuel, n ≤ fuel → f fuel a = some b) :
    ∃ bs, ∀ fuel, n ≤ fuel → l.mapM (f fuel) = some bs := by
  induction l with
  | nil => exact ⟨[], fun _ _ => rfl⟩
  | cons a l ih =>
    obtain ⟨b, hb⟩ := h a (by simp)
    obtain ⟨bs, hbs⟩ := ih fun c hc => h c (by simp [hc])
    refine ⟨b :: bs, fun fuel hfuel => ?_⟩
    rw [List.mapM_cons, hb fuel hfuel, hbs fuel hfuel]
    rfl

/-- Loops with the same rounds over the elements at hand are the same. -/
theorem foldlM_congr {f g : β → α → Option β} {l : List α} (h : ∀ a ∈ l, ∀ b, f b a = g b a)
    (b : β) : l.foldlM f b = l.foldlM g b := by
  induction l generalizing b with
  | nil => rfl
  | cons a l ih =>
    rw [List.foldlM_cons, List.foldlM_cons, h a (by simp)]
    exact congrArg _ (funext fun c => ih (fun a ha => h a (by simp [ha])) c)

/-- Where a loop has a result, every round of it had one. -/
theorem exists_step_of_foldlM {f : β → α → Option β} (l : List α) :
    ∀ b b', l.foldlM f b = some b' → ∀ a ∈ l, ∃ c c', f c a = some c' := by
  induction l with
  | nil => intro b b' _ a ha; cases ha
  | cons x l ih =>
    intro b b' h a ha
    rw [List.foldlM_cons, Option.bind_eq_bind, Option.bind_eq_some_iff] at h
    obtain ⟨c, hc, hrest⟩ := h
    rcases List.mem_cons.1 ha with rfl | ha
    · exact ⟨b, c, hc⟩
    · exact ih c b' hrest a ha

end CppEtudes
