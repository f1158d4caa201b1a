import CppEtudes.GermanString.Construct
import Mathlib.Order.Compare

/-!
# The order of German strings

Each pair of representations compares the strings piecewise, and pieces
of equal lengths compare as the whole does. What an object holds is what
it converts to. Where one string is inline and the other is not, the
bytes behind the common first four are never looked at.
-/

namespace CppEtudes

namespace GermanString

/-- The result of a comparison as an `int`. -/
def sign : Ordering → ℤ
  | .lt => -1
  | .eq => 0
  | .gt => 1

/-! ## Pieces -/

section Pieces

variable {u v x y : List UInt8} {p q : Chars} {n m : ℕ}

/-- Pieces of equal lengths, one after the other. -/
theorem compare_append (h : u.length = v.length) :
    Ord.compare (u ++ x) (v ++ y) = (Ord.compare u v).then (Ord.compare x y) := by
  rw [List.compare_eq_compareLex]
  induction u generalizing v with
  | nil =>
    obtain rfl : v = [] := List.length_eq_zero_iff.1 h.symm
    rfl
  | cons a u ih =>
    rcases v with - | ⟨b, v⟩
    · exact absurd h (by simp)
    · rw [List.cons_append, List.cons_append, List.compareLex_cons_cons, List.compareLex_cons_cons,
        ih (Nat.succ.inj h), Ordering.then_assoc]

theorem sign_injective {o o' : Ordering} (h : sign o = sign o') : o = o' := by
  rcases o with - | - | - <;> rcases o' with - | - | - <;> first | rfl | exact absurd h (by decide)

theorem compare_uint8 (a b : UInt8) :
    Ord.compare a b = if a < b then .lt else if a = b then .eq else .gt := rfl

/-- `memcmp` compares the bytes in order. -/
theorem memcmp_eq (n : ℕ) : memcmp p q n = sign (Ord.compare (bytes p n) (bytes q n)) := by
  induction n generalizing p q with
  | zero => rfl
  | succ n ih =>
    rw [memcmp, ih, bytes, bytes, List.compare_eq_compareLex, List.compareLex_cons_cons,
      ← List.compare_eq_compareLex, compare_uint8]
    split_ifs with heq hlt hlt
    · rw [heq] at hlt
      exact absurd hlt (UInt8.lt_irrefl _)
    · rfl
    · rfl
    · rfl

theorem compare_nil_left (h : x ≠ []) : Ord.compare [] x = .lt := by
  rcases x with - | ⟨a, x⟩
  · exact absurd rfl h
  · rfl

theorem compare_nil_right (h : x ≠ []) : Ord.compare x [] = .gt := by
  rcases x with - | ⟨a, x⟩
  · exact absurd rfl h
  · rfl

/-- **`memcompare`** compares the two strings. -/
theorem memcompare_eq : memcompare p n q m = sign (Ord.compare (bytes p n) (bytes q m)) := by
  unfold memcompare
  dsimp only
  rw [memcmp_eq]
  rcases Nat.lt_trichotomy n m with hlt | rfl | hlt
  · obtain ⟨k, rfl⟩ : ∃ k, m = n + (k + 1) := ⟨m - n - 1, by omega⟩
    rw [bytes_add, ← List.append_nil (bytes p n), compare_append (by rw [length_bytes, length_bytes]),
      compare_nil_left (bytes_ne_nil (Nat.succ_pos k)), Nat.min_eq_left (by omega)]
    rcases Ord.compare (bytes p n) (bytes q n) with - | - | -
    · rfl
    · simp [sign]
    · rfl
  · rw [Nat.min_self]
    rcases Ord.compare (bytes p n) (bytes q n) with - | - | -
    · rfl
    · simp [sign]
    · rfl
  · obtain ⟨k, rfl⟩ : ∃ k, n = m + (k + 1) := ⟨n - m - 1, by omega⟩
    rw [bytes_add, ← List.append_nil (bytes q m), compare_append (by rw [length_bytes, length_bytes]),
      compare_nil_right (bytes_ne_nil (Nat.succ_pos k)), Nat.min_eq_right (by omega)]
    rcases Ord.compare (bytes p m) (bytes q m) with - | - | -
    · rfl
    · simp [sign]
    · rfl

end Pieces

/-! ## `compare` -/

/-- The two strings agree in their first four bytes, only `x` is inline,
and it has more bytes and is the greater one. -/
def Misordered (x y : List UInt8) : Prop :=
  4 < x.length ∧ x.length ≤ 12 ∧ 12 < y.length ∧ x.take 4 = y.take 4 ∧ Ord.compare x y = .gt

instance (x y : List UInt8) : Decidable (Misordered x y) := inferInstanceAs (Decidable (_ ∧ _))

/-- The order that `compare` follows. -/
def ordered (x y : List UInt8) : Ordering :=
  if Misordered x y then .lt else if Misordered y x then .gt else Ord.compare x y

theorem ordered_of_lengths {x y : List UInt8} (h : x.length ≤ 12 ↔ y.length ≤ 12) :
    ordered x y = Ord.compare x y := by
  have hne (x y : List UInt8) (h : x.length ≤ 12 ↔ y.length ≤ 12) : ¬ Misordered x y := fun hm =>
    absurd (h.1 hm.2.1) (Nat.not_le.2 hm.2.2.1)
  rw [ordered, if_neg (hne x y h), if_neg (hne y x h.symm)]

section Compare

variable {heap : Heap} {s t : GermanString}

/-- An inline string and a long one: they are decided by the first four
bytes, or by all bytes of a shorter string. -/
theorem ordered_inline_long (hs : s.len ≤ 12) (ht : ¬ t.len ≤ 12) :
    ordered (toString heap s) (toString heap t) =
      (Ord.compare (bytes s.str (min s.len 4)) (bytes t.str (min s.len 4))).then .lt := by
  have hlong : ¬ Misordered (toString heap t) (toString heap s) := fun hm =>
    ht (length_toString heap _ ▸ hm.2.1)
  rw [ordered, if_neg hlong]
  rcases (Nat.lt_or_ge 4 s.len).symm with h4 | h4
  · have hshort : ¬ Misordered (toString heap s) (toString heap t) := fun hm =>
      absurd (length_toString heap _ ▸ hm.1) (Nat.not_lt.2 h4)
    obtain ⟨k, hk⟩ : ∃ k, 4 = s.len + k := ⟨4 - s.len, by omega⟩
    have hrest : bytes (fun i => t.str (i + s.len)) k ++ bytes (heap.chars t.ptr) (t.len - 4) ≠ [] := by
      refine List.ne_nil_of_length_pos ?_
      rw [List.length_append, length_bytes, length_bytes]
      omega
    have hsplit : toString heap t = bytes t.str s.len ++
        (bytes (fun i => t.str (i + s.len)) k ++ bytes (heap.chars t.ptr) (t.len - 4)) := by
      rw [toString_of_long ht, ← List.append_assoc, ← bytes_add, ← hk]
    rw [if_neg hshort, hsplit, toString_of_inline hs, ← List.append_nil (bytes s.str s.len),
      compare_append (by rw [length_bytes, length_bytes]), compare_nil_left hrest,
      Nat.min_eq_left h4]
  · obtain ⟨k, hk⟩ : ∃ k, s.len = 4 + k := ⟨s.len - 4, by omega⟩
    have hsplit : toString heap s = bytes s.str 4 ++ bytes (fun i => s.str (i + 4)) k := by
      rw [toString_of_inline hs, hk, bytes_add]
    have htake : (toString heap s).take 4 = bytes s.str 4 := by
      rw [hsplit, List.take_append_of_le_length (by rw [length_bytes]),
        List.take_of_length_le (by rw [length_bytes])]
    have hcompare : Ord.compare (toString heap s) (toString heap t) =
        (Ord.compare (bytes s.str 4) (bytes t.str 4)).then
          (Ord.compare (bytes (fun i => s.str (i + 4)) k) (bytes (heap.chars t.ptr) (t.len - 4))) := by
      rw [hsplit, toString_of_long ht, compare_append (by rw [length_bytes, length_bytes])]
    have hne : Ord.compare (bytes (fun i => s.str (i + 4)) k)
        (bytes (heap.chars t.ptr) (t.len - 4)) ≠ .eq := by
      intro heq
      have hlen := congrArg List.length (Std.LawfulEqOrd.eq_of_compare heq)
      rw [length_bytes, length_bytes] at hlen
      omega
    have hmis : Misordered (toString heap s) (toString heap t) ↔
        bytes s.str 4 = bytes t.str 4 ∧ Ord.compare (toString heap s) (toString heap t) = .gt := by
      rw [Misordered, length_toString, length_toString, htake, take_toString_of_long ht]
      exact ⟨fun hm => hm.2.2.2, fun hm => ⟨h4, hs, Nat.not_le.1 ht, hm⟩⟩
    rw [Nat.min_eq_right h4.le]
    rcases hc : Ord.compare (bytes s.str 4) (bytes t.str 4) with - | - | -
    all_goals rw [hc] at hcompare
    · have hlt : Ord.compare (toString heap s) (toString heap t) = .lt := hcompare
      rw [if_neg fun hm => absurd (hlt.symm.trans (hmis.1 hm).2) (by decide), hlt]
      rfl
    · have heq := Std.LawfulEqOrd.eq_of_compare hc
      rcases hd : Ord.compare (bytes (fun i => s.str (i + 4)) k)
        (bytes (heap.chars t.ptr) (t.len - 4)) with - | - | -
      all_goals rw [hd] at hcompare
      · rw [if_neg fun hm => absurd (hcompare.symm.trans (hmis.1 hm).2) (by decide), hcompare]
      · exact absurd hd hne
      · rw [if_pos (hmis.2 ⟨heq, hcompare⟩)]
        rfl
    · have hdiff : bytes s.str 4 ≠ bytes t.str 4 := by
        intro heq
        rw [heq, Std.ReflOrd.compare_self] at hc
        exact nomatch hc
      rw [if_neg fun hm => hdiff (hmis.1 hm).1, hcompare]
      rfl

theorem ordered_swap (x y : List UInt8) : ordered y x = (ordered x y).swap := by
  have hexcl : Misordered x y → ¬ Misordered y x := fun h h' =>
    absurd h.2.1 (Nat.not_le.2 h'.2.2.1)
  unfold ordered
  split_ifs with h₁ h₂ h₂
  · exact absurd h₁ (hexcl h₂)
  · rfl
  · rfl
  · exact Std.OrientedOrd.eq_swap

theorem sign_then {o o' : Ordering} : sign (o.then o') = if sign o ≠ 0 then sign o else sign o' := by
  rcases o with - | - | - <;> rfl

/-- **`compare`** on what the objects hold. -/
theorem compare_eq : compare heap s t = sign (ordered (toString heap s) (toString heap t)) := by
  have hmin (n : ℕ) : min n prefixLength ≤ prefixLength := Nat.min_le_right ..
  have hpre : prefixLength = 4 := rfl
  unfold compare
  rcases Decidable.em (s.len ≤ 12) with hs | hs <;> rcases Decidable.em (t.len ≤ 12) with ht | ht
  · rw [if_pos (by rw [isInline_iff.2 hs, isInline_iff.2 ht]; rfl), memcompare_eq,
      ordered_of_lengths (by rw [length_toString, length_toString]; exact iff_of_true hs ht),
      toString_of_inline hs, toString_of_inline ht]
  · have ht' : t.isInline = false := Bool.eq_false_iff.2 fun h => ht (isInline_iff.1 h)
    simp only [isInline_iff.2 hs, ht', Bool.and_false, Bool.false_eq_true, if_false, if_true, hmin]
    rw [ordered_inline_long hs ht, sign_then, memcompare_eq, hpre]
    rfl
  · have hs' : s.isInline = false := Bool.eq_false_iff.2 fun h => hs (isInline_iff.1 h)
    simp only [isInline_iff.2 ht, hs', Bool.and_true, Bool.false_eq_true, if_false, if_true, hmin]
    rw [ordered_swap, ordered_inline_long ht hs, Ordering.swap_then, ← Std.OrientedOrd.eq_swap,
      sign_then, memcompare_eq, hpre]
    rfl
  · have hs' : s.isInline = false := Bool.eq_false_iff.2 fun h => hs (isInline_iff.1 h)
    have ht' : t.isInline = false := Bool.eq_false_iff.2 fun h => ht (isInline_iff.1 h)
    simp only [hs', ht', Bool.and_false, Bool.false_eq_true, if_false, hpre]
    rw [ordered_of_lengths (by rw [length_toString, length_toString]; exact iff_of_false hs ht),
      toString_of_long hs, toString_of_long ht, compare_append (by rw [length_bytes, length_bytes]),
      sign_then, memcompare_eq, memcompare_eq]

end Compare

/-! ## Two constructed strings -/

namespace Pair

variable (P : Pair)

theorem sign_sign (o : Ordering) : (sign o).sign = sign o := by
  rcases o with - | - | - <;> rfl

theorem sign_compare_eq_iff :
    (compare P.memory P.left P.right).sign = sign (Ord.compare P.a P.b) ↔
      ordered (toString P.memory P.left) (toString P.memory P.right) = Ord.compare P.a P.b := by
  rw [compare_eq, sign_sign]
  exact ⟨sign_injective, congrArg sign⟩

theorem ordered_eq_iff {x y : List UInt8} (o : Ordering) :
    ordered x y = o ↔ (Misordered x y → o = .lt) ∧ (Misordered y x → o = .gt) ∧
      (¬ Misordered x y → ¬ Misordered y x → Ord.compare x y = o) := by
  have hexcl : Misordered x y → ¬ Misordered y x := fun h h' =>
    absurd h.2.1 (Nat.not_le.2 h'.2.2.1)
  unfold ordered
  split_ifs with h₁ h₂
  · simp [h₁, hexcl h₁, eq_comm]
  · simp [h₁, h₂, eq_comm]
  · simp [h₁, h₂]

/-- **When `compare` has the sign of the lexicographic order**: exactly if
neither of the strings is misordered. A string of `2 ^ 32` bytes or more
is cut by its `len`; for any lengths, it is the strings that the two
objects hold that must not be misordered, or must be misordered the way
that makes up for the cut. -/
theorem sign_compare_iff :
    ((compare P.memory P.left P.right).sign = sign (Ord.compare P.a P.b) ↔
      (Misordered (toString P.memory P.left) (toString P.memory P.right) →
        Ord.compare P.a P.b = .lt) ∧
      (Misordered (toString P.memory P.right) (toString P.memory P.left) →
        Ord.compare P.a P.b = .gt) ∧
      (¬ Misordered (toString P.memory P.left) (toString P.memory P.right) →
        ¬ Misordered (toString P.memory P.right) (toString P.memory P.left) →
        Ord.compare (toString P.memory P.left) (toString P.memory P.right) =
          Ord.compare P.a P.b)) ∧
    (P.a.length < 2 ^ 32 → P.b.length < 2 ^ 32 →
      ((compare P.memory P.left P.right).sign = sign (Ord.compare P.a P.b) ↔
        ¬ Misordered P.a P.b ∧ ¬ Misordered P.b P.a)) := by
  rw [sign_compare_eq_iff]
  refine ⟨ordered_eq_iff _, fun ha hb => ?_⟩
  rw [P.toString_left ha, P.toString_right hb, ordered_eq_iff]
  constructor
  · rintro ⟨hab, hba, -⟩
    refine ⟨fun h => ?_, fun h => ?_⟩
    · exact absurd ((hab h).symm.trans h.2.2.2.2) (by decide)
    · have hgt := hba h
      rw [Std.OrientedOrd.eq_swap, h.2.2.2.2] at hgt
      exact nomatch hgt
  · rintro ⟨hab, hba⟩
    exact ⟨fun h => absurd h hab, fun h => absurd h hba, fun _ _ => rfl⟩

/-- `abcdz` inline and `abcdaaaaaaaaa` out of line. -/
def inlineAndLong : Pair where
  heap := fun _ => 0
  rep₁ := fun _ => 0
  rep₂ := fun _ => 0
  a := [97, 98, 99, 100, 122]
  b := [97, 98, 99, 100, 97, 97, 97, 97, 97, 97, 97, 97, 97]
  remaining₁ := 0
  remaining₂ := 64
  apart := fun h => absurd h (by decide)

/-- The greater string comes first. -/
theorem compare_inlineAndLong :
    compare inlineAndLong.memory inlineAndLong.left inlineAndLong.right = -1 ∧
      Ord.compare inlineAndLong.a inlineAndLong.b = .gt := by
  decide +kernel

theorem sign_compare_iff_inlineAndLong :
    (compare inlineAndLong.memory inlineAndLong.left inlineAndLong.right).sign ≠
        sign (Ord.compare inlineAndLong.a inlineAndLong.b) ∧
      Misordered inlineAndLong.a inlineAndLong.b := by
  have hmis : Misordered inlineAndLong.a inlineAndLong.b := by decide +kernel
  refine ⟨fun h => ?_, hmis⟩
  exact ((inlineAndLong.sign_compare_iff.2 (by decide) (by decide)).1 h).1 hmis

end Pair

end GermanString

end CppEtudes
