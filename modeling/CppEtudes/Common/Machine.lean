import Mathlib.Data.Int.Basic
import Mathlib.Data.Nat.Log
import Mathlib.Tactic.NormNum

/-!
# Machine integers

The conversions a C program on an LP64 target performs between `int`,
`size_t` and its unbounded values: reduction to a signed 32-bit value,
reduction to an unsigned 64-bit one, an `int` counter, which has no
result once it overflows, and the operations on the bits of a word: a
shift by its width and the leading zeros of zero have no result.
-/

namespace CppEtudes

namespace Machine

/-- A value converted to `int`: reduced modulo `2^32` into
`[-2^31, 2^31)`. -/
def wrap32 (x : ℤ) : ℤ := (x + 2147483648) % 4294967296 - 2147483648

/-- A value converted to `size_t`: reduced modulo `2^64`. -/
def toSizeT (x : ℤ) : ℕ := (x % 18446744073709551616).toNat

/-- The values an `int` holds. -/
def InInt (x : ℤ) : Prop := -2147483648 ≤ x ∧ x < 2147483648

/-- `__builtin_clz`: the leading zero bits of a 32-bit word. The result
at zero is undefined. -/
def builtinClz (x : ℕ) : Option ℕ := if x = 0 then none else some (31 - Nat.log2 x)

/-- `__builtin_ctz`: the trailing zero bits of a 32-bit word. The result
at zero is undefined. -/
def builtinCtz (x : ℕ) : Option ℕ := (List.range 32).find? fun i => x.testBit i

/-- `~x` of a 32-bit word. -/
def complement32 (x : ℕ) : ℕ := 4294967295 ^^^ x

/-- `i += c` of an `int` counter from zero up: it has no result where the
sum is no longer an `int`. -/
def intAdd (i c : ℕ) : Option ℕ := if i + c < 2147483648 then some (i + c) else none

/-- `1 << s` of an `int`, without a result where that is no `int`. -/
def intShl (s : ℕ) : Option ℕ := if s < 31 then some (2 ^ s) else none

/-- A size that goes through an `int32_t`. A negative one is the size of
no object. -/
def int32Size (x : ℕ) : Option ℕ :=
  if x % 4294967296 < 2147483648 then some (x % 4294967296) else none

/-- `__builtin_popcount`: the bits set in a 32-bit word. -/
def builtinPopcount (x : ℕ) : ℕ := (List.range 32).countP fun j => x.testBit j

/-- A 64-bit word shifted right; a shift by its width or more is
undefined. -/
def shiftRight64 (x s : ℕ) : Option ℕ := if s < 64 then some (x >>> s) else none

theorem wrap32_of_inInt {x : ℤ} (h : InInt x) : wrap32 x = x := by
  obtain ⟨h₁, h₂⟩ := h
  unfold wrap32
  omega

theorem testBit_complement32 (x i : ℕ) :
    (complement32 x).testBit i = (decide (i < 32) ^^ x.testBit i) := by
  rw [complement32, Nat.testBit_xor, show 4294967295 = 2 ^ 32 - 1 from rfl,
    Nat.testBit_two_pow_sub_one]

/-- The trailing zeros end at the lowest bit. -/
theorem builtinCtz_of_lowest {x i : ℕ} (hi : i < 32) (hbit : x.testBit i = true)
    (hlow : ∀ j < i, x.testBit j = false) : builtinCtz x = some i := by
  rw [builtinCtz, List.find?_range_eq_some]
  exact ⟨hbit, List.mem_range.2 hi, fun j hj => by rw [hlow j hj, Bool.not_false]⟩

/-- The leading zeros end at the highest bit. -/
theorem builtinClz_of_highest {x i : ℕ} (hbit : x.testBit i = true)
    (hhigh : ∀ j, i < j → x.testBit j = false) : builtinClz x = some (31 - i) := by
  have hge : 2 ^ i ≤ x := Nat.ge_two_pow_of_testBit hbit
  have hlt : x < 2 ^ (i + 1) := Nat.lt_pow_two_of_testBit x hhigh
  have hpos : x ≠ 0 := Nat.ne_of_gt (Nat.lt_of_lt_of_le (Nat.two_pow_pos i) hge)
  rw [builtinClz, if_neg hpos, (Nat.log2_eq_iff hpos).2 ⟨hge, hlt⟩]

theorem intShl_of_lt {s : ℕ} (h : 2 ^ s < 2147483648) : intShl s = some (2 ^ s) := by
  rw [intShl, if_pos ((Nat.pow_lt_pow_iff_right (m := 31) (a := 2) (by omega)).1 (by omega))]

theorem int32Size_of_lt {x : ℕ} (h : x < 2147483648) : int32Size x = some x := by
  rw [int32Size, Nat.mod_eq_of_lt (by omega), if_pos h]

theorem toSizeT_natCast {n : ℕ} (h : n < 18446744073709551616) : toSizeT (n : ℤ) = n := by
  unfold toSizeT
  omega

theorem toSizeT_of_nonneg {x : ℤ} (h₀ : 0 ≤ x) (h : x < 18446744073709551616) :
    (toSizeT x : ℤ) = x := by
  unfold toSizeT
  omega

end Machine

end CppEtudes
