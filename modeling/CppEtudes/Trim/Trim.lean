import CppEtudes.Common.Blocks
import CppEtudes.StringFunctions.Utf8
import CppEtudes.Trim.Model.Trim

/-!
# The first and the last byte that is no space

A mask has the bits of the spaces of its register, so that the trailing
zeros of its complement end at the first other byte
(`builtinCtz_spaceMask`) and the leading zeros at the last one
(`builtinClz_spaceMask`). Each loop leaves nothing but spaces behind it,
which is the invariant that leads to the loop after it.
-/

namespace CppEtudes

namespace Trim

open Machine StringFunctions

def notSpace (b : Byte) : Bool := b != 0x20

/-! ## Masks -/

section Masks

variable {v : List Byte}

/-- The mask of a register. -/
def spaceMask (v : List Byte) : ℕ := movemask (v.map fun b => if b = 0x20 then 0xFF else 0)

theorem testBit_spaceMask (v : List Byte) (i : ℕ) :
    (spaceMask v).testBit i = decide (v[i]? = some 0x20) := by
  rw [spaceMask, testBit_movemask, List.getElem?_map]
  cases v[i]? with
  | none => rfl
  | some b =>
    by_cases hb : b = 0x20
    · simp [hb]
    · simp [hb]

/-- Before the first other byte there are spaces. -/
theorem getElem?_of_lt_findIdx {i : ℕ} (h : i < v.findIdx notSpace) : v[i]? = some 0x20 := by
  have hi : i < v.length := Nat.lt_of_lt_of_le h List.findIdx_le_length
  have hspace : notSpace v[i] = false := List.not_of_lt_findIdx h
  rw [List.getElem?_eq_getElem hi]
  rw [notSpace, bne_eq_false_iff_eq] at hspace
  rw [hspace]

theorem getElem?_findIdx : v[v.findIdx notSpace]? ≠ some 0x20 := by
  intro h
  obtain ⟨hlt, heq⟩ := List.getElem?_eq_some_iff.1 h
  have hother : notSpace v[v.findIdx notSpace] = true := List.findIdx_getElem
  rw [heq] at hother
  exact Bool.false_ne_true hother

/-- **The trailing zeros end at the first byte that is no space.** -/
theorem builtinCtz_spaceMask (hv : v.length = 16) :
    builtinCtz (65536 ||| complement32 (spaceMask v)) = some (v.findIdx notSpace) := by
  have hle : v.findIdx notSpace ≤ 16 := hv ▸ List.findIdx_le_length
  have hbit : ∀ i, (65536 ||| complement32 (spaceMask v)).testBit i =
      (decide (16 = i) || (decide (i < 32) ^^ decide (v[i]? = some 0x20))) := by
    intro i
    rw [Nat.testBit_or, testBit_complement32, testBit_spaceMask, show 65536 = 2 ^ 16 from rfl,
      Nat.testBit_two_pow]
  refine builtinCtz_of_lowest (by omega) ?_ fun j hj => ?_
  · rw [hbit, decide_eq_false getElem?_findIdx, decide_eq_true (by omega : _ < 32), Bool.xor_false,
      Bool.or_true]
  · rw [hbit, decide_eq_true (getElem?_of_lt_findIdx hj), decide_eq_true (by omega : j < 32),
      decide_eq_false (by omega), Bool.xor_self, Bool.or_false]

/-- **The leading zeros end at the last byte that is no space.** -/
theorem builtinClz_spaceMask (hv : v.length = 16) :
    builtinClz (complement32 (spaceMask v <<< 16 % 4294967296)) =
      some (v.reverse.findIdx notSpace) := by
  have hle : v.reverse.findIdx notSpace ≤ 16 := by
    rw [← hv, ← List.length_reverse]
    exact List.findIdx_le_length
  -- lane `i` is bit `i + 16`
  have hbit : ∀ i, (complement32 (spaceMask v <<< 16 % 4294967296)).testBit i =
      (decide (i < 32) && !(decide (16 ≤ i) && decide (v[i - 16]? = some 0x20))) := by
    intro i
    rw [testBit_complement32, show 4294967296 = 2 ^ 32 from rfl, Nat.testBit_mod_two_pow,
      Nat.testBit_shiftLeft, testBit_spaceMask]
    cases decide (i < 32)
    · rfl
    · rw [Bool.true_and, Bool.true_xor, Bool.true_and]
  have hlane : ∀ i, i < 16 → v[i]? = v.reverse[15 - i]? := by
    intro i hi
    rw [List.getElem?_reverse (by omega), hv]
    congr 1
    omega
  have hclz := builtinClz_of_highest (x := complement32 (spaceMask v <<< 16 % 4294967296))
    (i := 31 - v.reverse.findIdx notSpace) ?_ fun j hj => ?_
  · rwa [show 31 - (31 - v.reverse.findIdx notSpace) = v.reverse.findIdx notSpace by omega] at hclz
  · rw [hbit, decide_eq_true (by omega), Bool.true_and, Bool.not_eq_true']
    rcases Nat.lt_or_ge (v.reverse.findIdx notSpace) 16 with hlt | hge
    · rw [hlane _ (by omega), show 15 - (31 - v.reverse.findIdx notSpace - 16) =
        v.reverse.findIdx notSpace by omega, decide_eq_false getElem?_findIdx, Bool.and_false]
    · rw [decide_eq_false (by omega), Bool.false_and]
  · rw [hbit]
    rcases Nat.lt_or_ge j 32 with hlt | hge
    · rw [hlane _ (by omega), decide_eq_true (getElem?_of_lt_findIdx (by omega)),
        decide_eq_true (by omega : 16 ≤ j), Bool.and_true, Bool.not_true, Bool.and_false]
    · rw [decide_eq_false (by omega), Bool.false_and]

end Masks

/-! ## At the beginning -/

/-- The scalar loop, behind `pre`. -/
theorem skipLeadingBytes_eq (rest : List Byte) : ∀ (fuel : ℕ) (pre : List Byte),
    rest.length < fuel →
    skipLeadingBytes (pre ++ rest) fuel pre.length =
      some (pre.length + rest.findIdx notSpace) := by
  induction rest with
  | nil =>
    intro fuel pre hfuel
    obtain ⟨fuel, rfl⟩ : ∃ k, fuel = k + 1 := ⟨fuel - 1, by omega⟩
    rw [skipLeadingBytes, List.append_nil, List.getElem?_eq_none (Nat.le_refl _), if_neg nofun]
    rfl
  | cons b rest ih =>
    intro fuel pre hfuel
    obtain ⟨fuel, rfl⟩ : ∃ k, fuel = k + 1 := ⟨fuel - 1, by omega⟩
    have hget : (pre ++ b :: rest)[pre.length]? = some b := by simp
    rw [List.length_cons] at hfuel
    rw [skipLeadingBytes, hget, List.findIdx_cons]
    by_cases hb : b = 0x20
    · have hrest := ih fuel (pre ++ [b]) (by omega)
      rw [List.append_assoc, List.singleton_append, List.length_append, List.length_singleton]
        at hrest
      rw [if_pos (congrArg some hb), hrest, notSpace, hb]
      simp [Nat.add_assoc, Nat.add_comm 1]
    · rw [if_neg (hb ∘ Option.some.inj), notSpace, bne_iff_ne.2 hb]
      rfl

theorem spaceMasks_append {pre v post : List Byte} (hv : v.length = 16) :
    spaceMasks (pre ++ v ++ post) pre.length = some (spaceMask v) := by
  rw [spaceMasks, if_pos (by simp only [List.length_append]; omega), List.append_assoc,
    List.drop_left, List.take_left' hv]
  rfl

/-- The vector loop, behind `pre`. -/
theorem skipLeadingRegisters_eq (blocks : ℕ) : ∀ (fuel : ℕ) (pre rest : List Byte),
    blocks < fuel → blocks * 16 ≤ rest.length →
    skipLeadingRegisters (pre ++ rest) (pre.length + blocks * 16) fuel pre.length =
      some (pre.length + rest.findIdx notSpace) := by
  induction blocks with
  | zero =>
    intro fuel pre rest hfuel _
    obtain ⟨fuel, rfl⟩ : ∃ k, fuel = k + 1 := ⟨fuel - 1, by omega⟩
    rw [skipLeadingRegisters, if_neg (by omega),
      skipLeadingBytes_eq rest _ pre (by rw [List.length_append]; omega)]
  | succ blocks ih =>
    intro fuel pre rest hfuel hlen
    obtain ⟨fuel, rfl⟩ : ∃ k, fuel = k + 1 := ⟨fuel - 1, by omega⟩
    obtain ⟨v, rest, rfl, hv⟩ := Blocks.exists_append (by omega : 16 ≤ rest.length)
    rw [List.length_append] at hlen
    rw [skipLeadingRegisters, if_pos (by omega), ← List.append_assoc, spaceMasks_append hv,
      Option.bind_eq_bind, Option.bind_some, builtinCtz_spaceMask hv, Option.bind_some,
      List.findIdx_append, hv]
    by_cases hpos : v.findIdx notSpace < 16
    · rw [if_pos hpos, if_pos hpos]
      rfl
    · have hrest := ih fuel (pre ++ v) rest (by omega) (by omega)
      rw [List.length_append, hv, show pre.length + 16 + blocks * 16 =
        pre.length + (blocks + 1) * 16 by omega] at hrest
      rw [if_neg hpos, if_neg hpos, hrest, Nat.add_assoc, Nat.add_comm 16]

/-! ## At the end -/

/-- The scalar loop, before `back`. -/
theorem skipTrailingBytes_eq (front : List Byte) : ∀ (fuel : ℕ) (back : List Byte),
    front.length < fuel →
    skipTrailingBytes (front ++ back) fuel (front.length - 1) =
      some ((front.length : ℤ) - front.reverse.findIdx notSpace) := by
  induction front using List.reverseRecOn with
  | nil =>
    intro fuel back hfuel
    obtain ⟨fuel, rfl⟩ : ∃ k, fuel = k + 1 := ⟨fuel - 1, by omega⟩
    rfl
  | append_singleton front b ih =>
    intro fuel back hfuel
    obtain ⟨fuel, rfl⟩ : ∃ k, fuel = k + 1 := ⟨fuel - 1, by omega⟩
    rw [List.length_append, List.length_singleton] at hfuel ⊢
    have hpos : ((front.length + 1 : ℕ) : ℤ) - 1 = front.length := by omega
    have hget : (front ++ [b] ++ back)[front.length]? = some b := by simp
    rw [hpos, skipTrailingBytes, Int.toNat_natCast, hget, List.reverse_append,
      List.reverse_singleton, List.singleton_append, List.findIdx_cons]
    by_cases hb : b = 0x20
    · have hrest := ih fuel (b :: back) (by omega)
      rw [if_pos ⟨by omega, congrArg some hb⟩, List.append_assoc, List.singleton_append, hrest,
        notSpace, hb]
      simp
    · rw [if_neg fun h => hb (Option.some.inj h.2), notSpace, bne_iff_ne.2 hb]
      simp

/-- The vector loop, before `back`; the front has `rest` and `blocks`
registers. -/
theorem skipTrailingRegisters_eq (rest : List Byte) (blocks : ℕ) :
    ∀ (fuel : ℕ) (vs back : List Byte), blocks < fuel → vs.length = blocks * 16 →
    skipTrailingRegisters (rest ++ vs ++ back) rest.length fuel ((rest ++ vs).length - 16) =
      some (((rest ++ vs).length : ℤ) - (rest ++ vs).reverse.findIdx notSpace) := by
  induction blocks with
  | zero =>
    intro fuel vs back hfuel hlen
    obtain ⟨fuel, rfl⟩ : ∃ k, fuel = k + 1 := ⟨fuel - 1, by omega⟩
    obtain rfl : vs = [] := List.length_eq_zero_iff.1 (by omega)
    rw [List.append_nil, skipTrailingRegisters, if_neg (by omega), Int.sub_add_cancel,
      skipTrailingBytes_eq rest _ back (by rw [List.length_append]; omega)]
  | succ blocks ih =>
    intro fuel vs back hfuel hlen
    obtain ⟨fuel, rfl⟩ : ∃ k, fuel = k + 1 := ⟨fuel - 1, by omega⟩
    -- the last register
    obtain ⟨vs, v, rfl, hvs⟩ := Blocks.exists_append (by omega : blocks * 16 ≤ vs.length)
    rw [List.length_append] at hlen
    have hv : v.length = 16 := by omega
    have hp : ((rest ++ (vs ++ v)).length : ℤ) - 16 = (rest ++ vs).length := by
      simp only [List.length_append]
      omega
    have hlen' : ((rest ++ vs ++ v).length : ℤ) = (rest ++ vs).length + 16 := by
      rw [List.append_assoc]
      omega
    rw [hp, skipTrailingRegisters, if_pos (by rw [List.length_append]; omega),
      Int.toNat_natCast, ← List.append_assoc, spaceMasks_append hv,
      Option.bind_eq_bind, Option.bind_some, builtinClz_spaceMask hv, Option.bind_some,
      List.reverse_append, List.findIdx_append, List.length_reverse, hv]
    by_cases hpos : v.reverse.findIdx notSpace < 16
    · rw [if_pos hpos, if_pos hpos, hlen']
      rfl
    · have hrest := ih fuel vs (v ++ back) (by omega) hvs
      rw [if_neg hpos, if_neg hpos, List.append_assoc _ v, hrest, hlen']
      congr 1
      omega

/-! ## Both -/

/-- **Spaces are skipped up to the first other byte, and down to the
last**, with and without registers. -/
theorem skipSpaces_eq (simdOptimization : Bool) (s : List Byte) :
    skipLeadingSpaces simdOptimization s = some (s.findIdx (· != 0x20)) ∧
    skipTrailingSpaces simdOptimization s =
      some ((s.length - s.reverse.findIdx (· != 0x20) : ℕ) : ℤ) := by
  have hdiv : s.length / 16 * 16 ≤ s.length := Nat.div_mul_le_self _ _
  have hle : s.reverse.findIdx notSpace ≤ s.length := by
    rw [← List.length_reverse]
    exact List.findIdx_le_length
  -- registers from the end leave the remainder at the beginning
  obtain ⟨rest, vs, hs, hrest, hvs⟩ := Blocks.exists_append_whole s 16
  have hrest : (rest.length : ℤ) = s.length - s.length / 16 * 16 := by omega
  cases simdOptimization
  · have hleading := skipLeadingBytes_eq s (s.length + 1) [] (by omega)
    have htrailing := skipTrailingBytes_eq s (s.length + 1) [] (by omega)
    rw [List.nil_append, List.length_nil, Nat.zero_add] at hleading
    rw [List.append_nil, ← Nat.cast_sub hle] at htrailing
    exact ⟨hleading, htrailing⟩
  · have hleading := skipLeadingRegisters_eq (s.length / 16) (s.length + 1) [] s (by omega) hdiv
    have htrailing := skipTrailingRegisters_eq rest (s.length / 16) (s.length + 1) vs [] (by omega)
      hvs
    rw [List.nil_append, List.length_nil, Nat.zero_add, Nat.zero_add] at hleading
    rw [List.append_nil, ← hs, hrest, ← Nat.cast_sub hle] at htrailing
    exact ⟨hleading, htrailing⟩

/-- Behind sixteen letters there are two spaces. -/
example : skipTrailingSpaces true (List.replicate 16 0x61 ++ [0x20, 0x20]) = some 16 := by
  decide

end Trim

end CppEtudes
