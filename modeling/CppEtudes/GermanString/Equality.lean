import CppEtudes.GermanString.Compare

/-!
# Equality of German strings

`operator==` compares all sixteen bytes of the objects as soon as one of
them is inline. The constructor of an inline string sets the pointer to
zero and copies the string, so that the bytes between a string of less
than four bytes and the pointer are those that were there before.
-/

namespace CppEtudes

namespace GermanString

section Raw

variable {p q : Chars} {n : ℕ} {heap : Heap} {s t : GermanString}

theorem bytes_inj : bytes p n = bytes q n ↔ ∀ i < n, p i = q i := by
  refine ⟨fun h => ?_, bytes_congr⟩
  induction n generalizing p q with
  | zero => exact fun i hi => absurd hi (Nat.not_lt_zero i)
  | succ n ih =>
    obtain ⟨h0, hrest⟩ := List.cons.inj h
    rintro (- | i) hi
    · exact h0
    · exact ih hrest i (Nat.lt_of_succ_lt_succ hi)

theorem memcompare_eq_zero {m : ℕ} : (memcompare p n q m == 0) = true ↔ bytes p n = bytes q m := by
  rw [beq_iff_eq, memcompare_eq, show (0 : ℤ) = sign .eq from rfl]
  refine ⟨fun h => Std.LawfulEqOrd.eq_of_compare (sign_injective h), fun h => ?_⟩
  rw [h, Std.ReflOrd.compare_self]

theorem byte_inj {x y : ℕ} (hx : x < 2 ^ 32) (hy : y < 2 ^ 32)
    (h : ∀ i < 4, byte x i = byte y i) : x = y := by
  have hdigit (i : ℕ) (hi : i < 4) : x / 256 ^ i % 256 = y / 256 ^ i % 256 := by
    have hb := congrArg UInt8.toNat (h i hi)
    rwa [byte, byte, UInt8.toNat_ofNat', UInt8.toNat_ofNat'] at hb
  have h0 := hdigit 0 (by decide)
  have h1 := hdigit 1 (by decide)
  have h2 := hdigit 2 (by decide)
  have h3 := hdigit 3 (by decide)
  omega

/-- The sixteen bytes are the length and those behind it. -/
theorem bytes_raw (hs : s.len < 2 ^ 32) (ht : t.len < 2 ^ 32) :
    bytes s.raw 16 = bytes t.raw 16 ↔ s.len = t.len ∧ s.rep = t.rep := by
  rw [bytes_inj]
  constructor
  · intro h
    refine ⟨byte_inj hs ht fun i hi => ?_, funext fun i => ?_⟩
    · have hi' := h i (by omega)
      rwa [raw, raw, if_pos hi, if_pos hi] at hi'
    · have hi' := h (i.val + 4) (by omega)
      rwa [raw, raw, if_neg (by omega), if_neg (by omega), Nat.add_sub_cancel, str, str,
        dif_pos i.isLt, dif_pos i.isLt] at hi'
  · rintro ⟨hlen, hrep⟩ i -
    rw [raw, raw, str, str, hlen, hrep]

/-- **`operator==`**: by the bytes of the objects, or of the strings. -/
theorem eq_iff (hs : s.len < 2 ^ 32) (ht : t.len < 2 ^ 32) :
    eq heap s t = true ↔
      if s.len ≤ 12 ∨ t.len ≤ 12 then s.len = t.len ∧ s.rep = t.rep
      else toString heap s = toString heap t := by
  unfold eq
  split_ifs with hinline hor hor
  · rw [memcompare_eq_zero, bytes_raw hs ht]
  · rw [Bool.or_eq_true, isInline_iff, isInline_iff] at hinline
    exact absurd hinline hor
  · rw [Bool.or_eq_true, isInline_iff, isInline_iff] at hinline
    exact absurd hor hinline
  · obtain ⟨hs', ht'⟩ := not_or.1 hor
    rw [Bool.and_eq_true, memcompare_eq_zero, memcompare_eq_zero, toString_of_long hs',
      toString_of_long ht']
    constructor
    · rintro ⟨hpre, hrest⟩
      exact congrArg₂ _ hpre hrest
    · intro h
      exact List.append_inj h (by rw [length_bytes, length_bytes])

end Raw

namespace Pair

variable (P : Pair)

/-- Two strings are stored alike. -/
def StoredAlike : Prop :=
  P.a.length % 2 ^ 32 = P.b.length % 2 ^ 32 ∧
    if P.a.length % 2 ^ 32 ≤ 12 then P.left.rep = P.right.rep
    else P.a.take (P.a.length % 2 ^ 32) = P.b.take (P.b.length % 2 ^ 32)

theorem len_left : P.left.len = P.a.length % 2 ^ 32 := len_new

theorem len_right : P.right.len = P.b.length % 2 ^ 32 := len_new

/-- `operator==` tells whether the two strings are stored alike. -/
theorem eq_iff_storedAlike : eq P.memory P.left P.right = true ↔ P.StoredAlike := by
  have hlt (n : ℕ) : n % 2 ^ 32 < 2 ^ 32 := Nat.mod_lt _ (by decide)
  rw [eq_iff (len_left P ▸ hlt _) (len_right P ▸ hlt _), len_left, len_right, StoredAlike]
  split_ifs with hor ha ha
  · rfl
  · refine iff_of_false (fun h => ?_) (fun h => ?_)
    · omega
    · omega
  · exact absurd (Or.inl ha) hor
  · obtain ⟨-, hb⟩ := not_or.1 hor
    have hla : 12 < P.a.length := (Nat.not_le.1 ha).trans_le (Nat.mod_le ..)
    have hlb : 12 < P.b.length := (Nat.not_le.1 hb).trans_le (Nat.mod_le ..)
    rw [left, right, toString_new_of_lt (Nat.not_le.1 ha) (P.area_left hla),
      toString_new_of_lt (Nat.not_le.1 hb) (P.area_right hlb)]
    refine ⟨fun h => ⟨?_, h⟩, fun h => h.2⟩
    have hlen := congrArg List.length h
    rwa [List.length_take, List.length_take, Nat.min_eq_left (Nat.mod_le ..),
      Nat.min_eq_left (Nat.mod_le ..)] at hlen

/-- Two short copies of one string, over what was there before. -/
theorem rep_eq_iff (hab : P.a = P.b) (ha : P.a.length ≤ 12) :
    P.left.rep = P.right.rep ↔
      ∀ i : Fin 12, P.a.length ≤ i.val → i.val < 4 → P.rep₁ i = P.rep₂ i := by
  rw [left, right, new_of_le ha, new_of_le (hab ▸ ha), ← hab]
  dsimp only
  constructor
  · intro h i hle hlt
    have hi := congrFun h i
    rwa [setStr_of_le hle, setStr_of_le hle, setPtr_of_lt hlt, setPtr_of_lt hlt] at hi
  · intro h
    funext i
    rcases Nat.lt_or_ge i.val P.a.length with hi | hi
    · rw [setStr_of_lt hi, setStr_of_lt hi]
    · rw [setStr_of_le hi, setStr_of_le hi]
      rcases Nat.lt_or_ge i.val 4 with h4 | h4
      · rw [setPtr_of_lt h4, setPtr_of_lt h4, h i hi h4]
      · rw [setPtr_of_le h4, setPtr_of_le h4]

/-- The pointers of two long strings differ. -/
theorem rep_ne_of_lt (ha : 12 < P.a.length) (hb : 12 < P.b.length) : P.left.rep ≠ P.right.rep := by
  intro h
  have hptr : P.left.ptr = P.right.ptr := by
    delta ptr
    rw [h]
  rw [left, right, ptr_new ha, ptr_new hb] at hptr
  exact P.apart ha hb 0 (by omega) 0 (by omega) (by omega)

/-- Inline strings with the same bytes are the same. -/
theorem eq_of_rep_eq (ha : P.a.length ≤ 12) (hlen : P.a.length = P.b.length)
    (h : P.left.rep = P.right.rep) : P.a = P.b := by
  refine List.ext_getElem hlen fun i hi hi' => ?_
  have hstr : P.left.str i = P.right.str i := by rw [str, str, h]
  rwa [left, right, str_new_of_le ha hi, str_new_of_le (hlen ▸ ha) hi'] at hstr

theorem storedAlike_iff_of_eq (hab : P.a = P.b) :
    P.StoredAlike ↔ 12 < P.a.length % 2 ^ 32 ∨ P.a.length ≤ 12 ∧
      ∀ i : Fin 12, P.a.length ≤ i.val → i.val < 4 → P.rep₁ i = P.rep₂ i := by
  have hmod : P.a.length % 2 ^ 32 ≤ P.a.length := Nat.mod_le ..
  unfold StoredAlike
  split_ifs with hle
  · rcases Nat.lt_or_ge 12 P.a.length with hlong | hshort
    · refine iff_of_false (fun h => P.rep_ne_of_lt hlong (hab ▸ hlong) h.2) (fun h => ?_)
      omega
    · rw [P.rep_eq_iff hab hshort, ← hab]
      refine ⟨fun h => Or.inr ⟨hshort, h.2⟩, fun h => ⟨rfl, ?_⟩⟩
      exact (h.resolve_left (Nat.not_lt.2 hle)).2
  · rw [← hab]
    exact iff_of_true ⟨rfl, rfl⟩ (Or.inl (Nat.not_le.1 hle))

theorem eq_of_storedAlike (ha : P.a.length < 2 ^ 32) (hb : P.b.length < 2 ^ 32)
    (h : P.StoredAlike) : P.a = P.b := by
  rw [StoredAlike, Nat.mod_eq_of_lt ha, Nat.mod_eq_of_lt hb] at h
  obtain ⟨hlen, hrest⟩ := h
  split_ifs at hrest with hle
  · exact P.eq_of_rep_eq hle hlen hrest
  · rwa [List.take_length, List.take_length] at hrest

/-- **When `operator==` is equality.** Equal strings below `2 ^ 32` bytes
compare as equal exactly if the bytes left between a string of less than
four bytes and the pointer agree; different ones never do. Beyond that,
equal strings must have a stored length of more than 12, and different
ones must not be stored alike. -/
theorem eq_iff_leftovers :
    ((eq P.memory P.left P.right = true ↔ P.a = P.b) ↔
      (P.a = P.b → 12 < P.a.length % 2 ^ 32 ∨ P.a.length ≤ 12 ∧
        ∀ i : Fin 12, P.a.length ≤ i.val → i.val < 4 → P.rep₁ i = P.rep₂ i) ∧
      (P.a ≠ P.b → ¬ P.StoredAlike)) ∧
    (P.a.length < 2 ^ 32 → P.b.length < 2 ^ 32 →
      ((eq P.memory P.left P.right = true ↔ P.a = P.b) ↔
        (P.a = P.b →
          ∀ i : Fin 12, P.a.length ≤ i.val → i.val < 4 → P.rep₁ i = P.rep₂ i))) := by
  rw [eq_iff_storedAlike]
  refine ⟨?_, fun ha hb => ?_⟩
  · rcases Decidable.em (P.a = P.b) with hab | hab
    · rw [P.storedAlike_iff_of_eq hab]
      exact ⟨fun h => ⟨h.2, fun hne => absurd hab hne⟩, fun h => iff_of_true (h.1 hab) hab⟩
    · exact ⟨fun h => ⟨fun hab' => absurd hab' hab, fun _ hs => hab (h.1 hs)⟩,
        fun h => iff_of_false (h.2 hab) hab⟩
  · constructor
    · intro h hab
      rcases (P.storedAlike_iff_of_eq hab).1 (h.2 hab) with hlong | hleft
      · rw [Nat.mod_eq_of_lt ha] at hlong
        exact fun i hi h4 => absurd (hlong.trans_le hi) (by omega)
      · exact hleft.2
    · intro h
      refine ⟨P.eq_of_storedAlike ha hb, fun hab => (P.storedAlike_iff_of_eq hab).2 ?_⟩
      rw [Nat.mod_eq_of_lt ha]
      exact (Nat.lt_or_ge 12 P.a.length).imp_right fun hle => ⟨hle, h hab⟩

/-- The string `a` twice, over memory that was clear and memory that was
not. -/
def sameShort : Pair where
  heap := fun _ => 0
  rep₁ := fun _ => 0
  rep₂ := fun _ => 255
  a := [97]
  b := [97]
  remaining₁ := 0
  remaining₂ := 0
  apart := fun h => absurd h (by decide)

theorem eq_sameShort :
    eq sameShort.memory sameShort.left sameShort.right = false ∧ sameShort.a = sameShort.b := by
  decide +kernel

theorem eq_iff_leftovers_sameShort :
    ¬ (eq sameShort.memory sameShort.left sameShort.right = true ↔ sameShort.a = sameShort.b) ∧
      sameShort.rep₁ 1 ≠ sameShort.rep₂ 1 := by
  have hne : sameShort.rep₁ 1 ≠ sameShort.rep₂ 1 := by decide
  refine ⟨fun h => hne ?_, hne⟩
  exact (sameShort.eq_iff_leftovers.2 (by decide) (by decide)).1 h rfl 1 (by decide) (by decide)

end Pair

end GermanString

end CppEtudes
