import Mathlib.Data.Nat.Notation
import Mathlib.Data.List.Infix
import Mathlib.Logic.Function.Basic
import Mathlib.Tactic.Common

/-!
# Arrays of pointers that make up a tree

Arrays in memory, by address; an entry of an array is the address of
another one, down to the arrays of the last level, whose entries are
anything. An array is found by its path from the root. The arrays make up
a tree if there is one path to each (`Unshared`): then a new array that is
linked in has its own path and changes no other (`grow`), and what is
written to an array of the last level changes no path (`fill`).
-/

namespace CppEtudes

namespace ArrayTree

variable {α ι : Type}

/-- **The array at the end of a path** from the root, whose last step comes
first. -/
def arrayAt (slots : α → ι → Option α) (root : α) : List ι → Option α
  | [] => some root
  | i :: p => (arrayAt slots root p).bind fun a => slots a i

/-- **Each array is in use and has one path**, down to `n` levels below the
root. -/
structure Unshared (slots : α → ι → Option α) (root : α) (n : ℕ) (used : List α) : Prop where
  mem : ∀ p a, p.length ≤ n → arrayAt slots root p = some a → a ∈ used
  inj : ∀ p q a, p.length ≤ n → q.length ≤ n → arrayAt slots root p = some a →
    arrayAt slots root q = some a → p = q

section Paths

variable {slots : α → ι → Option α} {root a : α} {p q : List ι}

/-- Where a path ends, all longer ones do. -/
theorem arrayAt_eq_none_of_suffix (hp : arrayAt slots root p = none) (hsuffix : p <:+ q) :
    arrayAt slots root q = none := by
  obtain ⟨r, rfl⟩ := hsuffix
  induction r with
  | nil => exact hp
  | cons i r ih => rw [List.cons_append, arrayAt, ih, Option.bind_none]

/-- A single array, without anything below it. -/
theorem unshared_root {used : List α} (n : ℕ) (hempty : ∀ i, slots root i = none)
    (hmem : root ∈ used) : Unshared slots root n used := by
  have hnil {p : List ι} {a : α} (hp : arrayAt slots root p = some a) : p = [] ∧ root = a := by
    rcases p.eq_nil_or_concat with rfl | ⟨q, i, rfl⟩
    · exact ⟨rfl, Option.some.inj hp⟩
    · have hone : arrayAt slots root [i] = none := by
        rw [arrayAt, arrayAt, Option.bind_some, hempty]
      rw [List.concat_eq_append, arrayAt_eq_none_of_suffix hone (List.suffix_append q [i])] at hp
      exact nomatch hp
  refine ⟨fun p a _ hp => ?_, fun p q a _ _ hp hq => ?_⟩
  · rw [← (hnil hp).2]
    exact hmem
  · rw [(hnil hp).1, (hnil hq).1]

end Paths

variable [DecidableEq α]

/-- The arrays with the array `b` cleared. -/
def clear (slots : α → ι → Option α) (b : α) : α → ι → Option α :=
  Function.update slots b fun _ => none

theorem clear_self (slots : α → ι → Option α) (b : α) (i : ι) : clear slots b b i = none := by
  rw [clear, Function.update_self]

theorem clear_of_ne {slots : α → ι → Option α} {b x : α} (h : x ≠ b) :
    clear slots b x = slots x := Function.update_of_ne h ..

variable [DecidableEq ι]

/-- The arrays with entry `i` of the array `a` written. -/
def write (slots : α → ι → Option α) (a : α) (i : ι) (v : Option α) : α → ι → Option α :=
  Function.update slots a (Function.update (slots a) i v)

section Writes

variable {slots : α → ι → Option α} {root a b x : α} {i : ι} {p q : List ι} {n : ℕ}
variable {used : List α} {v : Option α}

theorem write_self : write slots a i v a = Function.update (slots a) i v := Function.update_self ..

theorem write_of_ne (h : x ≠ a) : write slots a i v x = slots x := Function.update_of_ne h ..

namespace Unshared

/-- **A new array is linked in** at a free entry of an inner array: it has
a path, and the other paths stay. -/
theorem arrayAt_grow (h : Unshared slots root n used) (ha : arrayAt slots root p = some a)
    (hp : p.length < n) (hfree : slots a i = none) (hb : b ∉ used) (hq : q.length ≤ n) :
    arrayAt (write (clear slots b) a i (some b)) root q =
      if q = i :: p then some b else arrayAt slots root q := by
  have hne {x : α} (hx : x ∈ used) : x ≠ b := fun hxb => hb (hxb ▸ hx)
  have hab : a ≠ b := hne (h.mem p a (Nat.le_of_lt hp) ha)
  have hempty (j : ι) : write (clear slots b) a i (some b) b j = none := by
    rw [write_of_ne hab.symm, clear_self]
  have hend : arrayAt slots root (i :: p) = none := by rw [arrayAt, ha, Option.bind_some, hfree]
  induction q with
  | nil => rfl
  | cons j q ih =>
    have hlen : q.length < n := hq
    rw [arrayAt, ih (Nat.le_of_lt hlen)]
    by_cases hnew : q = i :: p
    · -- the new array has nothing below it
      subst hnew
      have hlonger : j :: i :: p ≠ i :: p := List.cons_ne_self j (i :: p)
      rw [if_pos rfl, Option.bind_some, hempty, if_neg hlonger, arrayAt, hend, Option.bind_none]
    · rw [if_neg hnew]
      rcases hx : arrayAt slots root q with - | x
      · have hother : j :: q ≠ i :: p := by
          rintro ⟨⟩
          rw [ha] at hx
          exact nomatch hx
        rw [if_neg hother, arrayAt, hx, Option.bind_none]
        rfl
      · have hxb := hne (h.mem q x (Nat.le_of_lt hlen) hx)
        rw [Option.bind_some]
        rcases eq_or_ne x a with rfl | hxa
        · obtain rfl := h.inj q p x (Nat.le_of_lt hlen) (Nat.le_of_lt hp) hx ha
          rw [write_self, clear_of_ne hxb]
          rcases eq_or_ne j i with rfl | hji
          · rw [Function.update_self, if_pos rfl]
          · rw [Function.update_of_ne hji, if_neg fun heq => hji (List.cons.inj heq).1, arrayAt, hx,
              Option.bind_some]
        · have hother : j :: q ≠ i :: p := by
            rintro ⟨⟩
            exact hxa (Option.some.inj (hx.symm.trans ha))
          rw [write_of_ne hxa, clear_of_ne hxb, if_neg hother, arrayAt, hx, Option.bind_some]

theorem grow (h : Unshared slots root n used) (ha : arrayAt slots root p = some a)
    (hp : p.length < n) (hfree : slots a i = none) (hb : b ∉ used) :
    Unshared (write (clear slots b) a i (some b)) root n (b :: used) := by
  have hcases {q : List ι} {x : α} (hq : q.length ≤ n)
      (hx : arrayAt (write (clear slots b) a i (some b)) root q = some x) :
      (q = i :: p ∧ x = b) ∨ (arrayAt slots root q = some x ∧ x ≠ b) := by
    rw [h.arrayAt_grow ha hp hfree hb hq] at hx
    split_ifs at hx with hnew
    · exact .inl ⟨hnew, (Option.some.inj hx).symm⟩
    · exact .inr ⟨hx, fun hxb => hb (hxb ▸ h.mem q x hq hx)⟩
  refine ⟨fun q x hq hx => ?_, fun q₁ q₂ x hq₁ hq₂ hx₁ hx₂ => ?_⟩
  · rcases hcases hq hx with ⟨-, rfl⟩ | ⟨hx, -⟩
    · exact List.mem_cons_self
    · exact List.mem_cons_of_mem _ (h.mem q x hq hx)
  · rcases hcases hq₁ hx₁ with ⟨rfl, hxb⟩ | ⟨hold₁, hxb⟩
    · rcases hcases hq₂ hx₂ with ⟨rfl, -⟩ | ⟨-, hne⟩
      · rfl
      · exact absurd hxb hne
    · rcases hcases hq₂ hx₂ with ⟨-, heq⟩ | ⟨hold₂, -⟩
      · exact absurd heq hxb
      · exact h.inj q₁ q₂ x hq₁ hq₂ hold₁ hold₂

/-- **An array of the last level is written**: the paths stay. -/
theorem arrayAt_fill (h : Unshared slots root n used) (ha : arrayAt slots root p = some a)
    (hp : p.length = n) (hq : q.length ≤ n) :
    arrayAt (write slots a i v) root q = arrayAt slots root q := by
  induction q with
  | nil => rfl
  | cons j q ih =>
    have hlen : q.length < n := hq
    rw [arrayAt, arrayAt, ih (Nat.le_of_lt hlen)]
    rcases hx : arrayAt slots root q with - | x
    · rfl
    · have hxa : x ≠ a := by
        rintro rfl
        obtain rfl := h.inj q p x (Nat.le_of_lt hlen) (Nat.le_of_eq hp) hx ha
        omega
      rw [Option.bind_some, Option.bind_some, write_of_ne hxa]

theorem fill (h : Unshared slots root n used) (ha : arrayAt slots root p = some a)
    (hp : p.length = n) : Unshared (write slots a i v) root n used := by
  refine ⟨fun q x hq hx => ?_, fun q₁ q₂ x hq₁ hq₂ hx₁ hx₂ => ?_⟩
  · rw [h.arrayAt_fill ha hp hq] at hx
    exact h.mem q x hq hx
  · rw [h.arrayAt_fill ha hp hq₁] at hx₁
    rw [h.arrayAt_fill ha hp hq₂] at hx₂
    exact h.inj q₁ q₂ x hq₁ hq₂ hx₁ hx₂

end Unshared

end Writes

end ArrayTree

end CppEtudes
