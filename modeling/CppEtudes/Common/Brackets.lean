import Mathlib.Algebra.Ring.Int.Defs
import Mathlib.Data.List.Basic
import Mathlib.Tactic.Common

/-!
# Brackets

Sequences with one kind of opening and one kind of closing bracket among
other elements. A balanced sequence without brackets is any; one with
brackets has a first opening bracket, the closing one that pairs with it,
and balanced sequences between them and behind (`Balanced.cases`).
-/

namespace CppEtudes

namespace Brackets

variable {α : Type*} [DecidableEq α] (l r : α)

/-- How many brackets are open. -/
def depth (w : List α) : ℤ := w.count l - w.count r

/-- **A balanced sequence**: as many closing as opening brackets, and up to
no place more. -/
structure Balanced (w : List α) : Prop where
  total : depth l r w = 0
  before : ∀ u v, w = u ++ v → 0 ≤ depth l r u

/-- The closing bracket at place `j` pairs with the opening one at `i`: a
balanced sequence stands between them. -/
def Pairs (w : List α) (i j : ℕ) : Prop :=
  ∃ a m b, w = a ++ l :: (m ++ r :: b) ∧ i = a.length ∧ j = a.length + m.length + 1 ∧ Balanced l r m

/-- No brackets. -/
def Free (w : List α) : Prop := ∀ c ∈ w, c ≠ l ∧ c ≠ r

variable {l r} {u v w : List α}

theorem depth_append (u v : List α) : depth l r (u ++ v) = depth l r u + depth l r v := by
  simp only [depth, List.count_append]
  omega

@[simp] theorem depth_nil : depth l r ([] : List α) = 0 := by
  simp [depth]

theorem depth_open (h : l ≠ r) : depth l r [l] = 1 := by
  simp [depth, h]

theorem depth_close (h : l ≠ r) : depth l r [r] = -1 := by
  simp [depth, h.symm]

theorem depth_other {c : α} (hl : c ≠ l) (hr : c ≠ r) : depth l r [c] = 0 := by
  simp [depth, hl, hr]

omit [DecidableEq α] in
theorem free_nil : Free l r ([] : List α) := fun _ hc => nomatch hc

theorem Free.depth (h : Free l r w) : depth l r w = 0 := by
  have hl : w.count l = 0 := List.count_eq_zero.2 fun hc => (h l hc).1 rfl
  have hr : w.count r = 0 := List.count_eq_zero.2 fun hc => (h r hc).2 rfl
  rw [Brackets.depth, hl, hr]
  rfl

theorem Free.balanced (h : Free l r w) : Balanced l r w := by
  refine ⟨h.depth, fun u v huv => ?_⟩
  subst huv
  have hu : Free l r u := fun c hc => h c (List.mem_append_left _ hc)
  exact Int.le_of_eq hu.depth.symm

theorem Balanced.append (hu : Balanced l r u) (hv : Balanced l r v) : Balanced l r (u ++ v) := by
  refine ⟨by rw [depth_append, hu.total, hv.total]; rfl, fun a b hab => ?_⟩
  rcases List.append_eq_append_iff.1 hab with ⟨d, rfl, hd⟩ | ⟨d, rfl, -⟩
  · rw [depth_append, hu.total]
    have h := hv.before d b hd
    omega
  · exact hu.before a d rfl

theorem Balanced.flatten {ws : List (List α)} (h : ∀ w ∈ ws, Balanced l r w) :
    Balanced l r ws.flatten := by
  induction ws with
  | nil => exact free_nil.balanced
  | cons w ws ih =>
    exact (h w List.mem_cons_self).append (ih fun x hx => h x (List.mem_cons_of_mem _ hx))

/-- A balanced sequence in brackets is balanced. -/
theorem Balanced.wrap (h : l ≠ r) (hw : Balanced l r w) : Balanced l r (l :: (w ++ [r])) := by
  have hopen : ∀ t : List α, depth l r (l :: t) = 1 + depth l r t := by
    intro t
    rw [← List.singleton_append, depth_append, depth_open h]
  refine ⟨by rw [hopen, depth_append, hw.total, depth_close h]; rfl, fun u v huv => ?_⟩
  cases u with
  | nil => simp
  | cons c u =>
    obtain ⟨rfl, htail⟩ := List.cons.inj huv
    rw [hopen]
    rcases List.append_eq_append_iff.1 htail with ⟨d, rfl, hd⟩ | ⟨d, rfl, -⟩
    · -- at most the closing bracket is behind the sequence
      rcases List.append_eq_singleton_iff.1 hd.symm with ⟨rfl, -⟩ | ⟨rfl, -⟩
      · rw [depth_append, hw.total, depth_nil]
        decide
      · rw [depth_append, hw.total, depth_close h]
        decide
    · have hu := hw.before u d rfl
      omega

/-- Where brackets are closed that were not opened, there is a first one;
`k` brackets are open before. -/
theorem exists_first_close (h : l ≠ r) (t : List α) : ∀ k : ℤ, 0 ≤ k → k + depth l r t < 0 →
    ∃ m v, t = m ++ r :: v ∧ k + depth l r m = 0 ∧
      ∀ a b, m = a ++ b → 0 ≤ k + depth l r a := by
  induction t with
  | nil =>
    intro k hk hneg
    rw [depth_nil] at hneg
    omega
  | cons c t ih =>
    intro k hk hneg
    rw [← List.singleton_append, depth_append] at hneg
    by_cases hlow : k + depth l r [c] < 0
    · -- this is the one
      have hc : c = r := by
        by_contra hne
        rcases eq_or_ne c l with rfl | hl
        · rw [depth_open h] at hlow
          omega
        · rw [depth_other hl hne] at hlow
          omega
      subst hc
      rw [depth_close h] at hlow
      refine ⟨[], t, rfl, by rw [depth_nil]; omega, fun a b hab => ?_⟩
      rw [(List.append_eq_nil_iff.1 hab.symm).1, depth_nil]
      omega
    · obtain ⟨m, v, rfl, htotal, hbefore⟩ := ih (k + depth l r [c]) (by omega) (by omega)
      refine ⟨c :: m, v, rfl, ?_, fun a b hab => ?_⟩
      · rw [← List.singleton_append, depth_append]
        omega
      · cases a with
        | nil =>
          rw [depth_nil]
          omega
        | cons d a =>
          obtain ⟨rfl, htail⟩ := List.cons.inj hab
          have ha := hbefore a b htail
          rw [← List.singleton_append, depth_append]
          omega

/-- What is behind an opening bracket of a balanced sequence closes it and
is balanced then. -/
theorem exists_pair (h : l ≠ r) {o t : List α} (ho : Free l r o) (hw : Balanced l r (o ++ l :: t)) :
    ∃ m v, t = m ++ r :: v ∧ Balanced l r m ∧ Balanced l r v := by
  have hopen : ∀ a : List α, depth l r (o ++ l :: a) = 1 + depth l r a := by
    intro a
    rw [depth_append, ho.depth, ← List.singleton_append, depth_append, depth_open h]
    omega
  have htotal := hw.total
  rw [hopen] at htotal
  obtain ⟨m, v, rfl, hm, hbefore⟩ := exists_first_close h t 0 (Int.le_refl 0) (by omega)
  have hpair : ∀ a : List α, depth l r (o ++ l :: (m ++ r :: a)) = depth l r a := by
    intro a
    rw [hopen, depth_append, ← List.singleton_append, depth_append, depth_close h]
    omega
  refine ⟨m, v, rfl, ⟨by omega, fun a b hab => ?_⟩, ⟨?_, fun a b hab => ?_⟩⟩
  · have ha := hbefore a b hab
    omega
  · exact (hpair v).symm.trans hw.total
  · rw [← hpair]
    refine hw.before _ b ?_
    rw [hab, List.append_assoc, List.cons_append, List.append_assoc, List.cons_append]

/-- **A balanced sequence has no brackets, or has a first pair** with
balanced sequences inside and behind. -/
theorem Balanced.cases (h : l ≠ r) (hw : Balanced l r w) : Free l r w ∨
    ∃ o m v, w = o ++ l :: (m ++ r :: v) ∧ Free l r o ∧ Balanced l r m ∧ Balanced l r v := by
  by_cases hfree : Free l r w
  · exact .inl hfree
  -- the first bracket is an opening one
  have hex : ∃ c ∈ w, c = l ∨ c = r := by
    by_contra hall
    exact hfree fun c hc => ⟨fun h => hall ⟨c, hc, .inl h⟩, fun h => hall ⟨c, hc, .inr h⟩⟩
  obtain ⟨c, hfind⟩ : ∃ c, w.find? (fun c => decide (c = l ∨ c = r)) = some c := by
    refine Option.isSome_iff_exists.1 (List.find?_isSome.2 ?_)
    simpa using hex
  obtain ⟨hc, o, t, rfl, ho⟩ := List.find?_eq_some_iff_append.1 hfind
  have ho : Free l r o := fun d hd => by simpa using ho d hd
  have hcl : c = l := by
    refine (of_decide_eq_true hc).resolve_right ?_
    rintro rfl
    have hlow := hw.before (o ++ [c]) t (List.append_cons o c t)
    rw [depth_append, ho.depth, depth_close h] at hlow
    omega
  subst hcl
  obtain ⟨m, v, rfl, hm, hv⟩ := exists_pair h ho hw
  exact .inr ⟨o, m, v, rfl, ho, hm, hv⟩

end Brackets

end CppEtudes
