import CppEtudes.GermanString.Model.GermanString
import Mathlib.Data.List.GetD
import Mathlib.Data.Nat.Digits.Defs
import Mathlib.Tactic.Common

/-!
# What a constructed string holds

A string shorter than `2 ^ 32` converts back to its own bytes. A longer
one is cut, since `len` has 32 bits. Two strings are built one after the
other, each over memory with any content and with an area of its own for
the bytes that do not fit.
-/

namespace CppEtudes

namespace GermanString

section Bytes

variable {p : Chars} {n m : ℕ} {l : List UInt8}

theorem length_bytes : (bytes p n).length = n := by
  induction n generalizing p with
  | zero => rfl
  | succ n ih => rw [bytes, List.length_cons, ih]

theorem getElem_bytes {i : ℕ} (hi : i < (bytes p n).length) : (bytes p n)[i] = p i := by
  induction n generalizing p i with
  | zero => exact absurd hi (Nat.not_lt_zero i)
  | succ n ih =>
    rcases i with - | i
    · rfl
    · exact ih (Nat.lt_of_succ_lt_succ hi)

theorem bytes_add : bytes p (n + m) = bytes p n ++ bytes (fun i => p (i + n)) m := by
  induction n generalizing p with
  | zero => rw [Nat.zero_add]; rfl
  | succ n ih =>
    rw [Nat.add_right_comm, bytes, bytes, List.cons_append, ih]
    simp only [Nat.add_assoc]

theorem bytes_ne_nil (h : 0 < n) : bytes p n ≠ [] :=
  List.ne_nil_of_length_pos (length_bytes.symm ▸ h)

theorem take_bytes (h : n ≤ m) : (bytes p m).take n = bytes p n := by
  obtain ⟨k, rfl⟩ := Nat.exists_eq_add_of_le h
  rw [bytes_add, List.take_append_of_le_length (by rw [length_bytes]),
    List.take_of_length_le (by rw [length_bytes])]

theorem bytes_congr {q : Chars} (h : ∀ i < n, p i = q i) : bytes p n = bytes q n := by
  induction n generalizing p q with
  | zero => rfl
  | succ n ih => rw [bytes, bytes, h 0 (Nat.succ_pos n), ih fun i hi => h (i + 1) (by omega)]

theorem bytes_eq (h : ∀ i, (hi : i < l.length) → p i = l[i]) : bytes p l.length = l := by
  induction l generalizing p with
  | nil => rfl
  | cons a l ih =>
    rw [List.length_cons, bytes, h 0 (Nat.succ_pos _)]
    rw [ih fun i hi => h (i + 1) (Nat.succ_lt_succ hi)]
    rfl

end Bytes

section Strings

variable {heap : Heap} {s : GermanString}

theorem isInline_iff : s.isInline = true ↔ s.len ≤ 12 := decide_eq_true_iff

theorem toString_of_inline (h : s.len ≤ 12) : toString heap s = bytes s.str s.len := if_pos h

theorem toString_of_long (h : ¬ s.len ≤ 12) :
    toString heap s = bytes s.str 4 ++ bytes (heap.chars s.ptr) (s.len - 4) := if_neg h

theorem length_toString (heap : Heap) (s : GermanString) : (toString heap s).length = s.len := by
  rcases Nat.lt_or_ge 12 s.len with h | h
  · rw [toString_of_long (by omega), List.length_append, length_bytes, length_bytes]
    omega
  · rw [toString_of_inline h, length_bytes]

theorem take_toString_of_long (h : ¬ s.len ≤ 12) : (toString heap s).take 4 = bytes s.str 4 := by
  rw [toString_of_long h, List.take_append_of_le_length (by rw [length_bytes]),
    take_bytes (Nat.le_refl 4)]

end Strings

/-! ## The constructor -/

section New

variable {heap heap' : Heap} {rep : Fin 12 → UInt8} {a : List UInt8} {p : UInt64}

theorem len_new : (new heap rep a p).1.len = a.length % 2 ^ 32 := by
  unfold new
  split_ifs
  · rfl
  · rfl

theorem new_of_le (h : a.length ≤ 12) :
    new heap rep a p = (⟨a.length % 2 ^ 32, setStr (setPtr rep 0) a⟩, heap) := if_pos h

theorem new_of_lt (h : 12 < a.length) :
    new heap rep a p = (⟨a.length % 2 ^ 32, setPtr (setStr rep (a.take 4)) p.toNat⟩,
      heap.memcpy p.toNat (a.drop 4)) := if_neg (Nat.not_le.2 h)

theorem setStr_of_lt {l : List UInt8} {i : Fin 12} (hi : i.val < l.length) :
    setStr rep l i = l[i.val] := List.getD_eq_getElem _ _ hi

theorem setStr_of_le {l : List UInt8} {i : Fin 12} (hi : l.length ≤ i.val) :
    setStr rep l i = rep i := List.getD_eq_default _ _ hi

theorem setPtr_of_le {addr : ℕ} {i : Fin 12} (hi : 4 ≤ i.val) :
    setPtr rep addr i = byte addr (i.val - 4) := if_pos hi

theorem setPtr_of_lt {addr : ℕ} {i : Fin 12} (hi : i.val < 4) : setPtr rep addr i = rep i :=
  if_neg (Nat.not_le.2 hi)

theorem str_new_of_le (h : a.length ≤ 12) {i : ℕ} (hi : i < a.length) :
    (new heap rep a p).1.str i = a[i] := by
  rw [str, dif_pos (hi.trans_le h), new_of_le h]
  exact setStr_of_lt hi

theorem str_new_of_lt (h : 12 < a.length) {i : ℕ} (hi : i < 4) :
    (new heap rep a p).1.str i = a[i] := by
  have hi' : i < (a.take 4).length := by
    rw [List.length_take]
    omega
  rw [str, dif_pos (hi.trans (by decide)), new_of_lt h]
  dsimp only
  rw [setPtr_of_lt hi, setStr_of_lt hi', List.getElem_take]

/-- **A number from its bytes**, the lowest first. -/
theorem ofDigits_byte (x k : ℕ) :
    Nat.ofDigits 256 ((List.range k).map fun i => (byte x i).toNat) = x % 256 ^ k := by
  induction k with
  | zero =>
    rw [Nat.pow_zero, Nat.mod_one]
    rfl
  | succ k ih =>
    rw [List.range_succ, List.map_append, Nat.ofDigits_append, ih, List.length_map,
      List.length_range, List.map_singleton, Nat.ofDigits_singleton, byte, UInt8.toNat_ofNat']
    exact Nat.mod_pow_succ.symm

/-- A pointer is read from its bytes. -/
theorem ptr_eq {s : GermanString} {x : ℕ} (hx : x < 2 ^ 64)
    (h : ∀ (i : Fin 12) (j : ℕ), i.val = j + 4 → s.rep i = byte x j) : s.ptr = x := by
  have hptr : s.ptr = Nat.ofDigits 256 ((List.range 8).map fun i => (byte x i).toNat) := by
    delta ptr
    rw [h 4 0 rfl, h 5 1 rfl, h 6 2 rfl, h 7 3 rfl, h 8 4 rfl, h 9 5 rfl, h 10 6 rfl, h 11 7 rfl]
    rfl
  rw [hptr, ofDigits_byte]
  exact Nat.mod_eq_of_lt hx

theorem ptr_new (h : 12 < a.length) : (new heap rep a p).1.ptr = p.toNat := by
  refine ptr_eq p.toNat_lt fun i j hj => ?_
  rw [new_of_lt h]
  dsimp only
  rw [setPtr_of_le (by omega), hj, Nat.add_sub_cancel]

/-- A long string holds as many of its bytes as its length says. -/
theorem toString_new_of_lt (h : 12 < a.length % 2 ^ 32)
    (harea : bytes (heap'.chars p.toNat) (a.drop 4).length = a.drop 4) :
    toString heap' (new heap rep a p).1 = a.take (a.length % 2 ^ 32) := by
  have hle : a.length % 2 ^ 32 ≤ a.length := Nat.mod_le ..
  have hlong : 12 < a.length := h.trans_le hle
  have hfour : (a.take 4).length = 4 := by
    rw [List.length_take]
    omega
  have hpre : bytes (new heap rep a p).1.str 4 = a.take 4 := by
    refine Eq.trans (by rw [hfour]) (bytes_eq (l := a.take 4) fun i hi => ?_)
    rw [str_new_of_lt hlong (hfour ▸ hi), List.getElem_take]
  have hrest : bytes (heap'.chars p.toNat) (a.length % 2 ^ 32 - 4) =
      (a.drop 4).take (a.length % 2 ^ 32 - 4) := by
    rw [← harea, take_bytes]
    rw [List.length_drop]
    omega
  have hsplit : a.length % 2 ^ 32 = 4 + (a.length % 2 ^ 32 - 4) := by omega
  rw [toString_of_long (by rw [len_new]; omega), hpre, ptr_new hlong, len_new, hrest]
  conv_rhs => rw [hsplit, List.take_add]

/-- **A string below `2 ^ 32` converts back** to its bytes, as long as its
area has them. -/
theorem toString_new (h : a.length < 2 ^ 32)
    (harea : 12 < a.length → bytes (heap'.chars p.toNat) (a.drop 4).length = a.drop 4) :
    toString heap' (new heap rep a p).1 = a := by
  have hmod := Nat.mod_eq_of_lt h
  rcases Nat.lt_or_ge 12 a.length with hlong | hshort
  · rw [toString_new_of_lt (by rwa [hmod]) (harea hlong), hmod, List.take_length]
  · rw [toString_of_inline (by rw [len_new]; omega), len_new, hmod]
    exact bytes_eq fun i hi => str_new_of_le hshort hi

end New

namespace Heap

variable {heap : Heap} {addr : ℕ} {l : List UInt8}

theorem memcpy_of_lt {i : ℕ} (hi : i < l.length) : heap.memcpy addr l (addr + i) = l[i] := by
  rw [memcpy, if_pos (Nat.le_add_right ..), Nat.add_sub_cancel_left, List.getD_eq_getElem _ _ hi]

theorem memcpy_of_apart {i : ℕ} (h : i < addr ∨ addr + l.length ≤ i) :
    heap.memcpy addr l i = heap i := by
  rw [memcpy]
  split_ifs with hle
  · exact List.getD_eq_default _ _ (by omega)
  · rfl

theorem bytes_memcpy : bytes ((heap.memcpy addr l).chars addr) l.length = l :=
  bytes_eq fun _ hi => memcpy_of_lt hi

/-- An area that another write does not touch. -/
theorem bytes_memcpy_of_apart {addr' n : ℕ}
    (h : ∀ i < n, ∀ j < l.length, addr' + i ≠ addr + j) :
    bytes ((heap.memcpy addr l).chars addr') n = bytes (heap.chars addr') n := by
  have hsame (i : ℕ) (hi : i < n) : (heap.memcpy addr l).chars addr' i = heap.chars addr' i := by
    refine memcpy_of_apart ?_
    by_contra hin
    rw [not_or, Nat.not_lt, Nat.not_le] at hin
    exact h i hi (addr' + i - addr) (by omega) (by omega)
  exact bytes_congr hsame

end Heap

/-! ## Two strings -/

/-- **Two strings and their memory**: the areas for the bytes that do not
fit are apart. -/
structure Pair where
  heap : Heap
  rep₁ : Fin 12 → UInt8
  rep₂ : Fin 12 → UInt8
  a : List UInt8
  b : List UInt8
  remaining₁ : UInt64
  remaining₂ : UInt64
  apart : 12 < a.length → 12 < b.length → ∀ i < a.length - 4, ∀ j < b.length - 4,
    remaining₁.toNat + i ≠ remaining₂.toNat + j

namespace Pair

variable (P : Pair)

/-- `GermanString(a)`. -/
def left : GermanString := (new P.heap P.rep₁ P.a P.remaining₁).1

/-- `GermanString(b)`, built after it. -/
def right : GermanString := (new (new P.heap P.rep₁ P.a P.remaining₁).2 P.rep₂ P.b P.remaining₂).1

/-- The memory then. -/
def memory : Heap := (new (new P.heap P.rep₁ P.a P.remaining₁).2 P.rep₂ P.b P.remaining₂).2

theorem area_right (hb : 12 < P.b.length) :
    bytes (P.memory.chars P.remaining₂.toNat) (P.b.drop 4).length = P.b.drop 4 := by
  rw [memory, new_of_lt hb]
  exact Heap.bytes_memcpy

theorem area_left (ha : 12 < P.a.length) :
    bytes (P.memory.chars P.remaining₁.toNat) (P.a.drop 4).length = P.a.drop 4 := by
  rcases Nat.lt_or_ge 12 P.b.length with hb | hb
  · rw [memory, new_of_lt hb, new_of_lt ha, Heap.bytes_memcpy_of_apart, Heap.bytes_memcpy]
    rw [List.length_drop, List.length_drop]
    exact P.apart ha hb
  · rw [memory, new_of_le hb, new_of_lt ha]
    exact Heap.bytes_memcpy

theorem toString_right (hb : P.b.length < 2 ^ 32) : toString P.memory P.right = P.b :=
  toString_new hb P.area_right

theorem toString_left (ha : P.a.length < 2 ^ 32) : toString P.memory P.left = P.a :=
  toString_new ha P.area_left

end Pair

end GermanString

end CppEtudes
