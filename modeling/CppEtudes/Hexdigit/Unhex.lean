import CppEtudes.Hexdigit.Model.Hexdigit
import CppEtudes.StringFunctions.Utf8
import Mathlib.Tactic.Ring

/-!
# Decoding hexadecimal strings

All three functions for digits agree, but for the zero byte, which has no
result in `hexdigit_ord` (`hexdigitOrd_eq`, `hexdigitOrd4_eq`). The loops
then decode pairs of digits (`decode`), up to the first byte that is
none.
-/

namespace CppEtudes

namespace Hexdigit

open Machine StringFunctions

/-! ## Digits -/

/-- **The only byte without a result is zero.** -/
theorem hexdigitOrd_eq (ch : Byte) :
    hexdigitOrd ch = if ch = 0 then none else some (hexdigitOrdNonsimd ch) := by
  revert ch
  exact forall_byte (by decide +kernel)

/-- A character by itself. -/
theorem processCh_ordLanes (ch : Byte) :
    processCh (ordLanes ch) (movemask (ordLanes ch)) 0 =
      some (if hexdigitOrdNonsimd ch = 0xff then none
        else some ((hexdigitOrdNonsimd ch).toNat : ℤ)) := by
  revert ch
  exact forall_byte (by decide +kernel)

theorem length_ordLanes (ch : Byte) : (ordLanes ch).length = 8 := rfl

theorem movemask_append (v w : List Byte) :
    movemask (v ++ w) = movemask v + 2 ^ v.length * movemask w := by
  induction v with
  | nil =>
    rw [List.nil_append, List.length_nil, Nat.pow_zero, Nat.one_mul]
    exact (Nat.zero_add _).symm
  | cons b v ih =>
    rw [List.cons_append, movemask_cons, movemask_cons, ih, List.length_cons, Nat.pow_succ,
      Nat.bit_val, Nat.bit_val]
    ring

theorem movemask_lt (v : List Byte) : movemask v < 2 ^ v.length := by
  induction v with
  | nil => exact Nat.one_pos
  | cons b v ih =>
    rw [movemask_cons, List.length_cons, Nat.pow_succ, Nat.bit_val]
    have := Bool.toNat_le (decide (128 ≤ b.toNat))
    omega

/-- The mask of the first character, and of the others. -/
theorem movemask_ordLanes (ch : Byte) (v : List Byte) :
    movemask (ordLanes ch ++ v) &&& 0xff = movemask (ordLanes ch) ∧
      movemask (ordLanes ch ++ v) >>> 8 = movemask v := by
  have hlt : movemask (ordLanes ch) < 2 ^ 8 := movemask_lt (ordLanes ch)
  have happend : movemask (ordLanes ch ++ v) = movemask (ordLanes ch) + 2 ^ 8 * movemask v :=
    movemask_append (ordLanes ch) v
  rw [show 0xff = 2 ^ 8 - 1 from rfl, Nat.and_two_pow_sub_one_eq_mod, Nat.shiftRight_eq_div_pow]
  omega

/-- A character in its lane. -/
theorem processCh_eq {x v : List Byte} {i : ℕ} (ch : Byte)
    (hx : x.drop (8 * i) = ordLanes ch ++ v) :
    processCh x (movemask (ordLanes ch ++ v)) i =
      some (if hexdigitOrdNonsimd ch = 0xff then none
        else some ((hexdigitOrdNonsimd ch).toNat : ℤ)) := by
  rw [← processCh_ordLanes ch, processCh, processCh, (movemask_ordLanes ch v).1, hx,
    List.take_left' (length_ordLanes ch)]
  have hmask := (movemask_ordLanes ch []).1
  rw [List.append_nil] at hmask
  rw [hmask]
  rfl

theorem toChar_natCast (b : Byte) : toChar (b.toNat : ℤ) = b := by
  have hb := b.toNat_lt
  rw [toChar, show ((b.toNat : ℤ) % 256).toNat = b.toNat by omega, UInt8.ofNat_toNat]

theorem toChar_mul (b : Byte) : toChar ((b.toNat : ℤ) * 16) = b <<< 4 := by
  have hb := b.toNat_lt
  rw [← UInt8.toNat_inj, UInt8.toNat_shiftLeft, toChar, UInt8.toNat_ofNat',
    show (4 : UInt8).toNat % 8 = 4 from rfl, Nat.shiftLeft_eq]
  omega

/-- **Four characters at once.** -/
theorem hexdigitOrd4_eq (ch₀ ch₁ ch₂ ch₃ : Byte) : hexdigitOrd4 ch₀ ch₁ ch₂ ch₃ =
    some (if hexdigitOrdNonsimd ch₀ = 0xff ∨ hexdigitOrdNonsimd ch₁ = 0xff ∨
        hexdigitOrdNonsimd ch₂ = 0xff ∨ hexdigitOrdNonsimd ch₃ = 0xff then none
      else some ((hexdigitOrdNonsimd ch₀ <<< 4) + hexdigitOrdNonsimd ch₁,
        (hexdigitOrdNonsimd ch₂ <<< 4) + hexdigitOrdNonsimd ch₃)) := by
  -- the lanes of a character come to the front of the mask, and of `x`, in their turn
  rw [hexdigitOrd4, processCh_eq (x := _ ++ _) (i := 0) ch₀ rfl, (movemask_ordLanes ch₀ _).2,
    processCh_eq (x := _ ++ _) (i := 1) ch₁ rfl, (movemask_ordLanes ch₁ _).2,
    processCh_eq (x := _ ++ _) (i := 2) ch₂ rfl, (movemask_ordLanes ch₂ _).2]
  have hlast := processCh_eq (x := ordLanes ch₀ ++ (ordLanes ch₁ ++ (ordLanes ch₂ ++ ordLanes ch₃)))
    (v := []) (i := 3) ch₃ (List.append_nil _).symm
  rw [List.append_nil] at hlast
  rw [hlast]
  simp only [Option.bind_eq_bind, Option.bind_some]
  by_cases h₀ : hexdigitOrdNonsimd ch₀ = 0xff
  · simp [h₀]
  by_cases h₁ : hexdigitOrdNonsimd ch₁ = 0xff
  · simp [h₀, h₁]
  by_cases h₂ : hexdigitOrdNonsimd ch₂ = 0xff
  · simp [h₀, h₁, h₂]
  by_cases h₃ : hexdigitOrdNonsimd ch₃ = 0xff
  · simp [h₀, h₁, h₂, h₃]
  simp only [h₀, h₁, h₂, h₃, if_false, or_self, toChar_mul, toChar_natCast]
  rfl

/-! ## Pairs -/

/-- The bytes that pairs of digits stand for; there are none where a byte
is no digit. -/
def decode : List Byte → Option (List Byte)
  | a :: b :: s =>
    if hexdigitOrdNonsimd a = 0xff ∨ hexdigitOrdNonsimd b = 0xff then none
    else (decode s).map (((hexdigitOrdNonsimd a <<< 4) + hexdigitOrdNonsimd b) :: ·)
  | _ => some []

/-- What a loop returns that has decoded `ret` before. -/
def decoded (ret s : List Byte) : List Byte := ((decode s).map (ret ++ ·)).getD []

theorem decoded_cons_cons (ret s : List Byte) (a b : Byte) : decoded ret (a :: b :: s) =
    if hexdigitOrdNonsimd a = 0xff ∨ hexdigitOrdNonsimd b = 0xff then []
    else decoded (ret ++ [(hexdigitOrdNonsimd a <<< 4) + hexdigitOrdNonsimd b]) s := by
  rw [decoded, decode]
  split_ifs
  · rfl
  · rw [decoded, Option.map_map]
    congr 2
    funext out
    rw [Function.comp_apply, List.append_assoc, List.singleton_append]

section Loops

variable {ord : Byte → Option Byte} {fuel : ℕ} {pre rest ret : List Byte} {a b : Byte}

theorem and_ff (ch : Byte) : ch &&& 0xff = ch := by
  rw [show (0xff : Byte) = -1 from rfl, UInt8.and_neg_one]

/-- A round of `unhex0` or `unhex1`. -/
theorem unhexLoop_cons_cons (hint : pre.length + 2 < 2147483648) :
    unhexLoop ord (pre ++ a :: b :: rest) (fuel + 1) pre.length ret = (ord a).bind fun ch₀ =>
      if ch₀ = 0xff then some [] else (ord b).bind fun ch₁ =>
        if ch₁ = 0xff then some []
        else unhexLoop ord (pre ++ [a, b] ++ rest) fuel (pre ++ [a, b]).length
          (ret ++ [(ch₀ <<< 4) + ch₁]) := by
  have hfirst : (pre ++ a :: b :: rest)[pre.length]? = some a := by simp
  have hsecond : (pre ++ a :: b :: rest)[pre.length + 1]? = some b := by simp
  rw [unhexLoop, if_pos (by simp), hfirst, hsecond, intAdd, if_pos hint]
  simp only [Option.bind_eq_bind, Option.bind_some, and_ff, Option.pure_def, List.length_append,
    List.length_cons, List.length_nil, List.append_assoc, List.cons_append, List.nil_append]

theorem unhexLoop_nil : unhexLoop ord pre (fuel + 1) pre.length ret = some ret := by
  rw [unhexLoop, if_neg (Nat.lt_irrefl _)]
  rfl

/-- The bytes that are no digits. -/
def noDigit (ch : Byte) : Bool := hexdigitOrdNonsimd ch == 0xff

theorem noDigit_iff {ch : Byte} : noDigit ch = true ↔ hexdigitOrdNonsimd ch = 0xff := beq_iff_eq

theorem decoded_nil (ret : List Byte) : decoded ret [] = ret := List.append_nil ret

/-- Two bytes and the others, of an even number. -/
theorem exists_pair {n : ℕ} (h : rest.length = 2 * (n + 1)) :
    ∃ a b rest', rest = a :: b :: rest' ∧ rest'.length = 2 * n := by
  match rest, h with
  | [], h => simp at h
  | [_], h => simp at h; omega
  | a :: b :: rest, h => exact ⟨a, b, rest, rfl, by simp only [List.length_cons] at h; omega⟩

/-- **The loop of `unhex0` and `unhex1`**, for a function that gives the
digits but has no result at some bytes that are none: it has no result
where the first byte that is no digit is one of them. -/
theorem unhexLoop_eq {bad : Byte → Bool}
    (hord : ∀ ch, ord ch = if bad ch then none else some (hexdigitOrdNonsimd ch))
    (hbad : ∀ ch, bad ch = true → noDigit ch = true) (n : ℕ) :
    ∀ (fuel : ℕ) (pre rest ret : List Byte), n < fuel → rest.length = 2 * n →
    (pre ++ rest).length < 2147483648 →
    unhexLoop ord (pre ++ rest) fuel pre.length ret =
      if (rest.find? noDigit).any bad then none else some (decoded ret rest) := by
  induction n with
  | zero =>
    intro fuel pre rest ret hfuel hlen _
    obtain ⟨fuel, rfl⟩ : ∃ k, fuel = k + 1 := ⟨fuel - 1, by omega⟩
    obtain rfl : rest = [] := List.length_eq_zero_iff.1 (by omega)
    rw [List.append_nil, unhexLoop_nil, decoded_nil]
    rfl
  | succ n ih =>
    intro fuel pre rest ret hfuel hlen hint
    obtain ⟨fuel, rfl⟩ : ∃ k, fuel = k + 1 := ⟨fuel - 1, by omega⟩
    obtain ⟨a, b, rest, rfl, hrest⟩ := exists_pair hlen
    simp only [List.length_append, List.length_cons] at hint
    rw [unhexLoop_cons_cons (by omega), hord, hord, decoded_cons_cons]
    by_cases ha : noDigit a = true
    · rw [List.find?_cons_of_pos ha, Option.any_some, if_pos (Or.inl (noDigit_iff.1 ha))]
      cases bad a
      · rw [if_neg Bool.false_ne_true, if_neg Bool.false_ne_true, Option.bind_some,
          if_pos (noDigit_iff.1 ha)]
      · rfl
    rw [List.find?_cons_of_neg ha, if_neg (ha ∘ hbad a), Option.bind_some,
      if_neg (ha ∘ noDigit_iff.2)]
    by_cases hb : noDigit b = true
    · rw [List.find?_cons_of_pos hb, Option.any_some, if_pos (Or.inr (noDigit_iff.1 hb))]
      cases bad b
      · rw [if_neg Bool.false_ne_true, if_neg Bool.false_ne_true, Option.bind_some,
          if_pos (noDigit_iff.1 hb)]
      · rfl
    · rw [List.find?_cons_of_neg hb, if_neg (hb ∘ hbad b), Option.bind_some,
        if_neg (hb ∘ noDigit_iff.2), if_neg (not_or.2 ⟨ha ∘ noDigit_iff.2, hb ∘ noDigit_iff.2⟩),
        ih fuel (pre ++ [a, b]) rest _ (by omega) hrest (by simp; omega)]

/-- The loop of `unhex2`, where `sz - 3` does not wrap around. -/
theorem unhex2Loop_eq (n : ℕ) : ∀ (fuel : ℕ) (pre rest ret : List Byte), n < fuel →
    rest.length = 2 * n → (pre ++ rest).length < 2147483648 → 3 ≤ (pre ++ rest).length →
    unhex2Loop (pre ++ rest) fuel pre.length ret = some (decoded ret rest) := by
  induction n using Nat.twoStepInduction with
  | zero =>
    intro fuel pre rest ret hfuel hlen hint hwrap
    obtain ⟨fuel, rfl⟩ : ∃ k, fuel = k + 1 := ⟨fuel - 1, by omega⟩
    obtain rfl : rest = [] := List.length_eq_zero_iff.1 (by omega)
    rw [List.append_nil] at *
    have hbound : ¬ pre.length < toSizeT (pre.length - 3) := by
      rw [toSizeT]
      omega
    rw [unhex2Loop, if_neg hbound, if_pos rfl, decoded_nil]
    rfl
  | one =>
    intro fuel pre rest ret hfuel hlen hint hwrap
    obtain ⟨fuel, rfl⟩ : ∃ k, fuel = k + 1 := ⟨fuel - 1, by omega⟩
    obtain ⟨a, b, rest, rfl, hrest⟩ := exists_pair (n := 0) hlen
    obtain rfl : rest = [] := List.length_eq_zero_iff.1 (by omega)
    have hlen' : (pre ++ [a, b]).length = pre.length + 2 := by simp
    rw [hlen'] at hint hwrap
    have hbound : ¬ pre.length < toSizeT ((pre ++ [a, b]).length - 3) := by
      rw [hlen', toSizeT]
      omega
    have hfirst : (pre ++ [a, b])[pre.length]? = some a := by simp
    have hsecond : (pre ++ [a, b])[pre.length + 1]? = some b := by simp
    have hdigit : hexdigitOrdNonsimd 0x30 = 0 := by decide
    rw [unhex2Loop, if_neg hbound, if_neg (by omega), hfirst, hsecond, decoded_cons_cons,
      decoded_nil]
    simp only [Option.bind_eq_bind, Option.bind_some, hexdigitOrd4_eq, hdigit]
    by_cases ha : hexdigitOrdNonsimd a = 0xff
    · simp [ha]
    by_cases hb : hexdigitOrdNonsimd b = 0xff
    · simp [hb]
    · simp [ha, hb]
  | more n ih _ =>
    intro fuel pre rest ret hfuel hlen hint hwrap
    obtain ⟨fuel, rfl⟩ : ∃ k, fuel = k + 1 := ⟨fuel - 1, by omega⟩
    obtain ⟨a, b, rest, rfl, hrest⟩ := exists_pair hlen
    obtain ⟨c, d, rest, rfl, hrest'⟩ := exists_pair hrest
    have hlen' : (pre ++ a :: b :: c :: d :: rest).length = pre.length + 4 + rest.length := by
      simp only [List.length_append, List.length_cons]
      omega
    rw [hlen'] at hint hwrap
    have hbound : pre.length < toSizeT ((pre ++ a :: b :: c :: d :: rest).length - 3) := by
      rw [hlen', toSizeT]
      omega
    have hget : (pre ++ a :: b :: c :: d :: rest)[pre.length]? = some a ∧
        (pre ++ a :: b :: c :: d :: rest)[pre.length + 1]? = some b ∧
        (pre ++ a :: b :: c :: d :: rest)[pre.length + 2]? = some c ∧
        (pre ++ a :: b :: c :: d :: rest)[pre.length + 3]? = some d := by
      simp
    have hnext := ih fuel (pre ++ [a, b, c, d]) rest
      (ret ++ [(hexdigitOrdNonsimd a <<< 4) + hexdigitOrdNonsimd b,
        (hexdigitOrdNonsimd c <<< 4) + hexdigitOrdNonsimd d]) (by omega) hrest'
      (by simp; omega) (by simp; omega)
    rw [List.append_assoc, List.length_append] at hnext
    rw [unhex2Loop, if_pos hbound, hget.1, hget.2.1, hget.2.2.1, hget.2.2.2, intAdd,
      if_pos (by omega), decoded_cons_cons, decoded_cons_cons]
    simp only [Option.bind_eq_bind, Option.bind_some, hexdigitOrd4_eq]
    by_cases ha : hexdigitOrdNonsimd a = 0xff
    · simp [ha]
    by_cases hb : hexdigitOrdNonsimd b = 0xff
    · simp [hb]
    by_cases hc : hexdigitOrdNonsimd c = 0xff
    · simp [hc]
    by_cases hd : hexdigitOrdNonsimd d = 0xff
    · simp [hd]
    simp only [ha, hb, hc, hd, or_self, if_false]
    rw [List.append_assoc ret]
    exact hnext

end Loops

/-! ## The functions -/

variable {s : List Byte}

/-- **`unhex0` always decodes.** -/
theorem unhex0_eq (hlen : s.length < 2147483648) :
    unhex0 s = some (if s.length % 2 = 1 then [] else decoded [] s) := by
  rw [unhex0, unhexWith]
  by_cases hodd : s.length % 2 = 1
  · rw [if_pos hodd, if_pos hodd]
  · have hloop := unhexLoop_eq (fun ch => (if_neg Bool.false_ne_true).symm) nofun (s.length / 2)
      (s.length + 1) [] s [] (by omega) (by omega) hlen
    have hnone : (s.find? noDigit).any (fun _ => false) = false := by
      cases s.find? noDigit <;> rfl
    rw [List.nil_append, List.length_nil, hnone, if_neg Bool.false_ne_true] at hloop
    rw [if_neg hodd, if_neg hodd, hloop]

/-- **`unhex1` decodes as `unhex0` does, unless the first byte that is no
digit is zero**: then it asks for the leading zeros of zero. -/
theorem unhex1_iff (hlen : s.length < 2147483648) :
    (∃ ret, unhex0 s = some ret ∧ unhex1 s = some ret) ↔
      s.length % 2 = 1 ∨ s.find? (fun ch => hexdigitOrdNonsimd ch == 0xff) ≠ some 0 := by
  rw [unhex0_eq hlen, unhex1, unhexWith]
  by_cases hodd : s.length % 2 = 1
  · simp [hodd]
  have hzero : (s.find? noDigit).any (fun ch => decide (ch = 0)) = true ↔
      s.find? noDigit = some 0 := by
    cases s.find? noDigit <;> simp
  have hbad : ∀ ch : Byte, decide (ch = 0) = true → noDigit ch = true := by
    intro ch h
    rw [of_decide_eq_true h]
    rfl
  have hord : ∀ ch : Byte, hexdigitOrd ch =
      if decide (ch = 0) then none else some (hexdigitOrdNonsimd ch) := by
    intro ch
    rw [hexdigitOrd_eq]
    simp only [decide_eq_true_eq]
  have hloop := unhexLoop_eq hord hbad (s.length / 2) (s.length + 1) [] s [] (by omega) (by omega)
    hlen
  rw [List.nil_append, List.length_nil] at hloop
  rw [if_neg hodd, if_neg hodd, hloop, or_iff_right hodd]
  by_cases hfirst : s.find? noDigit = some 0
  · exact iff_of_false (by rw [if_pos (hzero.2 hfirst)]; rintro ⟨ret, -, ⟨⟩⟩) (not_not.2 hfirst)
  · exact iff_of_true ⟨_, rfl, if_neg (hfirst ∘ hzero.1)⟩ hfirst

/-- The digits of an `a`, and a byte that is no digit. -/
theorem unhex1_iff_letter :
    (∃ ret, unhex0 [0x36, 0x31, 0x7A, 0x00] = some ret ∧
      unhex1 [0x36, 0x31, 0x7A, 0x00] = some ret) :=
  (unhex1_iff (by decide)).2 (by decide)

/-- A zero byte in front. -/
theorem unhex1_zero : unhex0 [0x00, 0x30] = some [] ∧ unhex1 [0x00, 0x30] = none := by
  decide

/-- **`unhex2` decodes as `unhex0` does, unless the string has no byte or
two**: there `sz - 3` wraps around, and four bytes are read. -/
theorem unhex2_iff (hlen : s.length < 2147483648) :
    (∃ ret, unhex0 s = some ret ∧ unhex2 s = some ret) ↔ s.length ≠ 0 ∧ s.length ≠ 2 := by
  rw [unhex0_eq hlen, unhex2]
  by_cases hodd : s.length % 2 = 1
  · rw [if_pos hodd, if_pos hodd]
    exact iff_of_true ⟨[], rfl, rfl⟩ (by omega)
  rw [if_neg hodd, if_neg hodd]
  match s, hlen, hodd with
  | [], _, _ => exact iff_of_false (by rintro ⟨ret, -, ⟨⟩⟩) (by decide)
  | [_], _, hodd => exact absurd rfl hodd
  | [a, b], _, _ => exact iff_of_false (by rintro ⟨ret, -, ⟨⟩⟩) (by simp)
  | a :: b :: c :: rest, hlen, hodd =>
    have hloop := unhex2Loop_eq ((a :: b :: c :: rest).length / 2)
      ((a :: b :: c :: rest).length + 1) [] (a :: b :: c :: rest) [] (by omega) (by omega) hlen
      (by simp)
    exact iff_of_true ⟨_, rfl, hloop⟩ (by simp)

/-- The digits of two letters. -/
theorem unhex2_iff_twoLetters :
    ∃ ret, unhex0 [0x36, 0x31, 0x36, 0x32] = some ret ∧
      unhex2 [0x36, 0x31, 0x36, 0x32] = some ret :=
  (unhex2_iff (by decide)).2 (by decide)

/-- The digits of one. -/
theorem unhex2_letter : unhex0 [0x36, 0x31] = some [0x61] ∧ unhex2 [0x36, 0x31] = none := by
  decide

end Hexdigit

end CppEtudes
