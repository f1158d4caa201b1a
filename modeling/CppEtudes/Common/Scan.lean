import Mathlib.Data.List.DropRight
import Mathlib.Data.List.Infix
import Mathlib.Data.Nat.Basic
import Mathlib.Tactic.Common

/-!
# Scanning a sequence of self-announcing characters

A character is a run of elements whose first one announces how many
there are. `advance` walks forward by the announced lengths and reports
how far it got, which is past the end where the last character
announces more than there is; `Fits` bounds that overhang. Backward the
walk has no lengths to go by: `IsTail` is what it looks for, the suffix
that starts at a given first element counted from the end.
-/

namespace CppEtudes

namespace Scan

variable {α : Type*}

/-! ## Forward -/

section Forward

variable (size : α → Option ℕ)

/-- The elements `n` characters take, by their announced lengths. A first
element that announces nothing leaves the walk without a result. -/
def advance : ℕ → List α → Option ℕ
  | 0, _ => some 0
  | _ + 1, [] => some 0
  | n + 1, b :: xs => do
    let c ← size b
    let d ← advance n ((b :: xs).drop c)
    return c + d

/-- Each of the first `n` characters announces a length. -/
def Announced : ℕ → List α → Prop
  | 0, _ => True
  | _ + 1, [] => True
  | n + 1, b :: xs => ∃ c, size b = some c ∧ Announced n ((b :: xs).drop c)

/-- Each of the first `n` characters announces a length, and none of them
more than `room` elements beyond the end. -/
def Fits (room : ℕ) : ℕ → List α → Prop
  | 0, _ => True
  | _ + 1, [] => True
  | n + 1, b :: xs =>
    ∃ c, size b = some c ∧ c ≤ (b :: xs).length + room ∧ Fits room n ((b :: xs).drop c)

/-- A whole character: as many elements as its first one announces. -/
def IsChar (c : List α) : Prop := ∃ b t, c = b :: t ∧ size b = some c.length

variable {size}

@[simp] theorem advance_zero (xs : List α) : advance size 0 xs = some 0 := by
  cases xs <;> rfl

@[simp] theorem advance_nil (n : ℕ) : advance size n [] = some 0 := by
  cases n <;> rfl

@[simp] theorem fits_zero {room : ℕ} (xs : List α) : Fits size room 0 xs := by
  cases xs <;> trivial

@[simp] theorem fits_nil {room : ℕ} (n : ℕ) : Fits size room n [] := by
  cases n <;> trivial

theorem advance_eq_some_iff_announced (n : ℕ) :
    ∀ xs : List α, (∃ c, advance size n xs = some c) ↔ Announced size n xs := by
  induction n with
  | zero => intro xs; cases xs <;> simp [advance, Announced]
  | succ n ih =>
    intro xs
    cases xs with
    | nil => simp [advance, Announced]
    | cons b xs =>
      constructor
      · rintro ⟨c, hc⟩
        simp only [advance, Option.bind_eq_bind, Option.bind_eq_some_iff] at hc
        obtain ⟨d, hd, e, he, -⟩ := hc
        exact ⟨d, hd, (ih _).1 ⟨e, he⟩⟩
      · rintro ⟨d, hd, hrest⟩
        obtain ⟨e, he⟩ := (ih _).2 hrest
        exact ⟨d + e, by simp [advance, hd, he]⟩

/-- **The overhang is what the walk ends beyond the end.** -/
theorem fits_iff_advance {room : ℕ} (n : ℕ) :
    ∀ xs : List α, Fits size room n xs ↔
      ∃ c, advance size n xs = some c ∧ c ≤ xs.length + room := by
  induction n with
  | zero => intro xs; simp
  | succ n ih =>
    intro xs
    cases xs with
    | nil => simp
    | cons b xs =>
      constructor
      · rintro ⟨c, hc, hle, hrest⟩
        obtain ⟨d, hd, hdle⟩ := (ih _).1 hrest
        refine ⟨c + d, by simp [advance, hc, hd], ?_⟩
        rw [List.length_drop] at hdle
        rcases Nat.lt_or_ge (b :: xs).length c with hlt | hge
        · -- past the end already, the rest is empty and adds nothing
          rw [List.drop_eq_nil_of_le hlt.le, advance_nil] at hd
          cases hd
          omega
        · omega
      · rintro ⟨c, hc, hle⟩
        simp only [advance, Option.bind_eq_bind, Option.bind_eq_some_iff] at hc
        obtain ⟨d, hd, e, he, hde⟩ := hc
        cases hde
        refine ⟨d, hd, by omega, (ih _).2 ⟨e, he, ?_⟩⟩
        rw [List.length_drop]
        rcases Nat.lt_or_ge (b :: xs).length d with hlt | hge
        · rw [List.drop_eq_nil_of_le hlt.le, advance_nil] at he
          cases he
          omega
        · omega

/-- Walking `m + n` characters is walking `m` and then `n`. -/
theorem advance_add (m n : ℕ) : ∀ xs : List α, advance size (m + n) xs =
    (advance size m xs).bind fun a => (advance size n (xs.drop a)).map (a + ·) := by
  induction m with
  | zero => intro xs; simp
  | succ m ih =>
    intro xs
    cases xs with
    | nil => simp
    | cons b xs =>
      rw [Nat.succ_add]
      simp only [advance, Option.bind_eq_bind]
      cases hb : size b with
      | none => simp
      | some c =>
        simp only [Option.bind_some, ih]
        cases advance size m ((b :: xs).drop c) with
        | none => simp
        | some d =>
          simp only [Option.bind_some, List.drop_drop, Option.pure_def]
          cases advance size n ((b :: xs).drop (c + d)) with
          | none => simp
          | some e => simp [Nat.add_assoc]

/-- **Over whole characters the walk is by characters.** -/
theorem advance_flatten (n : ℕ) : ∀ cs : List (List α), (∀ c ∈ cs, IsChar size c) →
    advance size n cs.flatten = some (cs.take n).flatten.length := by
  induction n with
  | zero => intro cs _; simp
  | succ n ih =>
    intro cs hcs
    cases cs with
    | nil => simp
    | cons c cs =>
      obtain ⟨b, t, rfl, hb⟩ := hcs c (by simp)
      have hrest : (b :: (t ++ cs.flatten)).drop (b :: t).length = cs.flatten := by
        rw [← List.cons_append, List.drop_left]
      simp only [List.flatten_cons, List.cons_append, advance, hb, Option.bind_eq_bind,
        Option.bind_some, hrest, ih cs fun c hc => hcs c (by simp [hc]), List.take_succ_cons]
      rw [← List.cons_append, List.length_append]
      rfl

end Forward

/-! ## Where each character starts -/

section Starts

variable (size : α → ℕ)

/-- The positions the characters of `xs` start at, `i` being the
position of the first; `fuel` bounds their number. -/
def starts : ℕ → ℕ → List α → List ℕ
  | 0, _, _ => []
  | _ + 1, _, [] => []
  | fuel + 1, i, b :: xs => i :: starts fuel (i + size b) ((b :: xs).drop (size b))

variable {size}

@[simp] theorem starts_nil (fuel i : ℕ) : starts size fuel i ([] : List α) = [] := by
  cases fuel <;> rfl

/-- **The starts ascend strictly, below the end.** -/
theorem starts_sorted (hpos : ∀ b, 0 < size b) (fuel : ℕ) : ∀ (i : ℕ) (xs : List α),
    (starts size fuel i xs).Pairwise (· < ·) ∧
      ∀ j ∈ starts size fuel i xs, i ≤ j ∧ j < i + xs.length := by
  induction fuel with
  | zero => intro i xs; simp [starts]
  | succ fuel ih =>
    intro i xs
    cases xs with
    | nil => simp
    | cons b xs =>
      obtain ⟨hsort, hmem⟩ := ih (i + size b) ((b :: xs).drop (size b))
      have hb := hpos b
      have hrest : ∀ j ∈ starts size fuel (i + size b) ((b :: xs).drop (size b)),
          i < j ∧ j < i + (b :: xs).length := by
        intro j hj
        obtain ⟨h₁, h₂⟩ := hmem j hj
        rw [List.length_drop] at h₂
        omega
      refine ⟨List.pairwise_cons.2 ⟨fun j hj => (hrest j hj).1, hsort⟩, ?_⟩
      intro j hj
      rcases List.mem_cons.1 hj with rfl | hj
      · simp
      · exact ⟨(hrest j hj).1.le, (hrest j hj).2⟩

/-- **Over whole characters the starts are the lengths of the prefixes.** -/
theorem starts_flatten (fuel : ℕ) : ∀ (i : ℕ) (cs : List (List α)),
    (∀ c ∈ cs, IsChar (fun b => some (size b)) c) → cs.length ≤ fuel →
    starts size fuel i cs.flatten =
      (List.range cs.length).map fun j => i + (cs.take j).flatten.length := by
  induction fuel with
  | zero =>
    intro i cs _ hle
    rw [List.length_eq_zero_iff.1 (Nat.le_zero.1 hle)]
    simp
  | succ fuel ih =>
    intro i cs hcs hle
    cases cs with
    | nil => simp
    | cons c cs =>
      obtain ⟨b, t, rfl, hb⟩ := hcs c (by simp)
      have hsize : size b = (b :: t).length := by simpa using hb
      have hrest : (b :: (t ++ cs.flatten)).drop (b :: t).length = cs.flatten := by
        rw [← List.cons_append, List.drop_left]
      rw [List.length_cons] at hle
      simp only [List.flatten_cons, List.cons_append, starts, hsize, hrest]
      rw [ih (i + (b :: t).length) cs (fun c hc => hcs c (by simp [hc])) (by omega)]
      simp [List.range_succ_eq_map, Nat.add_assoc, Function.comp_def]

end Starts

/-! ## An index by a bounded counter -/

section Index

variable (size : α → Option ℕ) (limit : ℕ)

/-- The positions the characters of `xs` start at, by a counter that must
stay below `limit`; `i` is its value at the first of them. -/
def index : ℕ → ℕ → List α → Option (List ℕ)
  | 0, _, _ => some []
  | _ + 1, _, [] => some []
  | fuel + 1, i, b :: xs => do
    let c ← size b
    if i + c < limit then
      let rest ← index fuel (i + c) ((b :: xs).drop c)
      return i :: rest
    else none

variable {size limit}

@[simp] theorem index_nil (fuel i : ℕ) : index size limit fuel i ([] : List α) = some [] := by
  cases fuel <;> rfl

/-- **Over whole characters the index is the lengths of the prefixes, as
long as the counter holds the end.** -/
theorem index_flatten (fuel : ℕ) : ∀ (i : ℕ) (cs : List (List α)),
    (∀ c ∈ cs, IsChar size c) → cs.length ≤ fuel → i < limit →
    index size limit fuel i cs.flatten =
      if i + cs.flatten.length < limit then
        some ((List.range cs.length).map fun j => i + (cs.take j).flatten.length)
      else none := by
  induction fuel with
  | zero =>
    intro i cs _ hle hi
    rw [List.length_eq_zero_iff.1 (Nat.le_zero.1 hle)]
    simp [index, hi]
  | succ fuel ih =>
    intro i cs hcs hle hi
    cases cs with
    | nil => simp [hi]
    | cons c cs =>
      obtain ⟨b, t, rfl, hb⟩ := hcs c (by simp)
      rw [List.length_cons] at hle
      have hrest : (b :: (t ++ cs.flatten)).drop (b :: t).length = cs.flatten := by
        rw [← List.cons_append, List.drop_left]
      have hlen : ((b :: t) :: cs).flatten.length = (b :: t).length + cs.flatten.length := by
        rw [List.flatten_cons, List.length_append]
      have hstep : index size limit (fuel + 1) i ((b :: t) :: cs).flatten =
          if i + (b :: t).length < limit then
            (index size limit fuel (i + (b :: t).length) cs.flatten).map (i :: ·)
          else none := by
        simp only [List.flatten_cons, List.cons_append, index, hb, Option.bind_eq_bind,
          Option.bind_some, hrest, Option.map_eq_bind]
        rfl
      rw [hstep]
      by_cases hlt : i + (b :: t).length < limit
      · rw [if_pos hlt, ih _ cs (fun c hc => hcs c (by simp [hc])) (by omega) hlt]
        by_cases hend : i + (b :: t).length + cs.flatten.length < limit
        · rw [if_pos hend, if_pos (by omega)]
          simp [List.range_succ_eq_map, Nat.add_assoc, Function.comp_def]
        · rw [if_neg hend, if_neg (by omega), Option.map_none]
      · rw [if_neg hlt, if_neg (by omega)]

end Index

/-! ## Backward -/

section Backward

variable (cont : α → Bool)

/-- The suffix of `xs` that starts with a first element and holds exactly
`n` first elements, `cont` telling the others. -/
structure IsTail (n : ℕ) (xs t : List α) : Prop where
  suffix : t <:+ xs
  head : ∃ b ∈ t.head?, cont b = false
  count : t.countP (fun b => !cont b) = n

variable {cont}

/-- There is at most one such suffix: the longer of two would hold more
first elements. -/
theorem IsTail.unique {n : ℕ} {xs t t' : List α} (h : IsTail cont n xs t)
    (h' : IsTail cont n xs t') : t = t' := by
  have key : ∀ {s s' : List α}, IsTail cont n xs s → IsTail cont n xs s' → s <:+ s' → s = s' := by
    rintro s s' hs hs' ⟨u, rfl⟩
    cases u with
    | nil => rfl
    | cons b u =>
      obtain ⟨b', hb', hlead⟩ := hs'.head
      have hbb : b = b' := by simpa using hb'
      have hcount := hs'.count
      rw [List.cons_append, List.countP_cons, List.countP_append, hs.count, hbb, hlead] at hcount
      simp only [Bool.not_false, if_true] at hcount
      omega
  rcases List.suffix_or_suffix_of_suffix h.suffix h'.suffix with hle | hle
  · exact key h h' hle
  · exact (key h' h hle).symm

/-- Where there are fewer than `n` first elements there is no such suffix. -/
theorem not_isTail_of_count_lt {n : ℕ} {xs t : List α}
    (hlt : xs.countP (fun b => !cont b) < n) : ¬ IsTail cont n xs t := by
  intro h
  have := h.suffix.sublist.countP_le (p := fun b => !cont b)
  have hcount := h.count
  omega

end Backward

end Scan

end CppEtudes
