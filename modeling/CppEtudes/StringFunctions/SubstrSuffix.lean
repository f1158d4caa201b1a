import CppEtudes.StringFunctions.Substr

/-!
# `substr` without a length

With `use_length = false` a row's value is its suffix of characters from
the offset on. The two UTF-8 kernels honour the flag; the ASCII kernel
does not read it and cuts at `len`, so a column of ASCII text is where
the paths part (`substr_suffix_iff`).
-/

namespace CppEtudes

namespace StringFunctions

open Machine

variable {src dst : BinaryColumn} {i : ℕ} {offset len : ℤ} {cs : List (List Byte)}

/-- **The suffix of characters.** From the left, the characters from
position `offset` on; from the right, the last `o`, and nothing where
the row is shorter. -/
def utf8Suffix (cs : List (List Byte)) (offset : ℤ) : List Byte :=
  if 0 < offset then (cs.drop (offset - 1).toNat).flatten
  else if cs.length < (-offset).toNat then []
  else (cs.drop (cs.length - (-offset).toNat)).flatten

theorem length_flatten_drop_le (cs : List (List Byte)) (n : ℕ) :
    (cs.drop n).flatten.length ≤ cs.flatten.length := by
  rw [← drop_flatten_take, List.length_drop]
  omega

theorem length_utf8Suffix_le (cs : List (List Byte)) (offset : ℤ) :
    (utf8Suffix cs offset).length ≤ cs.flatten.length := by
  unfold utf8Suffix
  split_ifs
  · exact length_flatten_drop_le _ _
  · exact Nat.zero_le _
  · exact length_flatten_drop_le _ _

/-! ## The UTF-8 kernels -/

theorem yields_left_suffix (hsrc : src.OffsetsOk) (hi : i < src.size)
    (hrow : src.row i = cs.flatten) (h : ∀ c ∈ cs, IsUtf8Char c) (lookupTable : Bool)
    (offset len : ℤ) :
    Yields src i (utf8SubstrFromLeftRow false lookupTable src.bytes offset len (src.getSlice i))
      (cs.drop (toSizeT offset)).flatten := by
  rw [utf8SubstrFromLeftRow_eq hsrc hi, hrow,
    Scan.advance_flatten _ cs fun c hc => charSize_isChar lookupTable (h c hc), Option.bind_some,
    if_neg Bool.false_ne_true, ← drop_flatten_take, ← hrow]
  exact yields_rest hsrc hi (by rw [hrow]; exact length_flatten_take_le _ _)

theorem yields_right_suffix (hsrc : src.OffsetsOk) (hi : i < src.size)
    (hrow : src.row i = cs.flatten) (h : ∀ c ∈ cs, IsUtf8Char c) (lookupTable : Bool) {o : ℕ}
    (hpos : 0 < o) (ho : o < 2147483648) (len : ℤ) :
    Yields src i (utf8SubstrFromRightRow false lookupTable src.bytes o len (src.getSlice i))
      (if cs.length < o then [] else (cs.drop (cs.length - o)).flatten) := by
  have hcast : toSizeT (o : ℤ) = o := toSizeT_natCast (by omega)
  rcases Nat.lt_or_ge (src.row i).length o with hshort | hle
  · -- more characters asked for than there are bytes
    have hsize := hsrc.row_length hi
    have hcount := length_le_length_flatten h
    rw [if_pos (by rw [hrow] at hshort; omega), utf8SubstrFromRightRow, hcast, if_pos (by omega)]
    exact yields_empty src i
  rcases Nat.lt_or_ge smallIndexMax (src.row i).length with hlarge | hsmall
  · rcases utf8SubstrFromRightRow_large hsrc hi hlarge false lookupTable len hcast hpos hle with
      ⟨hbody, hfew⟩ | ⟨k, hk, htail, hbody⟩
    · rw [hrow, countP_flatten h] at hfew
      rw [hbody, if_pos hfew]
      exact yields_empty src i
    · obtain ⟨hge, hdrop⟩ := drop_of_isTail hrow h hpos htail
      rw [hbody, if_neg (by simp), if_neg (by omega), ← hdrop]
      exact yields_rest hsrc hi hk
  · rw [utf8SubstrFromRightRow_small hsrc hi hsmall false lookupTable len hcast hle, hrow,
      Scan.starts_flatten _ 0 cs (fun c hc => tableSize_isChar (h c hc))
        (length_le_length_flatten h)]
    simp only [List.length_map, List.length_range, Bool.false_and, Bool.false_eq_true, if_false]
    by_cases hshort : cs.length < o
    · rw [if_pos hshort, if_pos hshort]
      exact yields_empty src i
    · rw [if_neg hshort, if_neg hshort, List.getD_eq_getElem _ _ (by simp; omega)]
      simp only [List.getElem_map, List.getElem_range, Nat.zero_add]
      rw [← drop_flatten_take, ← hrow]
      exact yields_rest hsrc hi (by rw [hrow]; exact length_flatten_take_le _ _)

/-! ## The ASCII kernel -/

/-- **The row is short enough for the ASCII kernel**: an `int` holds its
positions, and its suffix has no more than `len` bytes, unless `len` is
negative and the sum that bounds the copy is below its start. -/
def KeepsSuffix (offset len : ℤ) (n : ℕ) : Prop :=
  n < 2147483648 ∧ (len < 0 ∨
    if 0 < offset then (n : ℤ) < offset + len else (n : ℤ) < -offset ∨ -offset ≤ len)

/-- The position at which the kernel ends its copy is the end of the
row only where an `int` holds it and `len` reaches it. -/
theorem asciiEnd_eq_iff {f : ℤ} {n : ℕ} (hf : 0 ≤ f) (hf' : f < 2147483648) (hfn : f ≤ n)
    (hn : n < 4294967296) (hlen : InInt len) :
    (if wrap32 (f + len) < f ∨ n < toSizeT (wrap32 (f + len)) then wrap32 n
      else wrap32 (f + len)) = n ↔ n < 2147483648 ∧ (len < 0 ∨ (n : ℤ) ≤ f + len) := by
  obtain ⟨h₁, h₂⟩ := hlen
  rcases lt_or_ge (f + len) 2147483648 with hsum | hsum
  · have hwrap : wrap32 (f + len) = f + len := wrap32_of_inInt ⟨by omega, hsum⟩
    rw [hwrap]
    unfold wrap32 toSizeT
    split_ifs <;> omega
  · -- the sum overflows, and the copy is cut at the end of the row
    have hwrap : wrap32 (f + len) = f + len - 4294967296 := by unfold wrap32; omega
    rw [hwrap, if_pos (Or.inl (by omega))]
    unfold wrap32
    omega

/-- A range from inside a row on is the rest of the row exactly where it
ends with it. -/
theorem range_eq_rest_iff (hsrc : src.OffsetsOk) (hi : i < src.size) {a : ℕ} {last : ℤ}
    (ha : a ≤ (src.row i).length) :
    ((Piece.range ((src.getSlice i).data + a : ℕ) last).Held src.bytes ∧
        (Piece.range ((src.getSlice i).data + a : ℕ) last).value src.bytes =
          (src.row i).drop a) ↔
      last = (src.getSlice i).stop := by
  have hrow := hsrc.row_length hi
  constructor
  · rintro ⟨⟨h₁, h₂, h₃⟩, hvalue⟩
    have hlength := congrArg List.length hvalue
    simp only [Piece.value, List.length_take, List.length_drop, Int.toNat_natCast] at hlength
    rw [Slice.stop]
    omega
  · rintro rfl
    obtain ⟨p, hp, hwithin, hvalue⟩ := yields_rest hsrc hi ha
    cases hp
    exact ⟨hsrc.held_of_within hi hwithin, hvalue⟩

section Ascii

theorem drop_flatten_of_isAscii (h : ∀ c ∈ cs, IsUtf8Char c)
    (hascii : ∀ b ∈ cs.flatten, IsAscii b) {a : ℕ} (ha : a ≤ cs.length) :
    cs.flatten.drop a = (cs.drop a).flatten := by
  rw [← drop_flatten_take, length_flatten_take_of_isAscii h hascii, Nat.min_eq_left ha]

variable (hsrc : src.OffsetsOk) (hi : i < src.size) (hrow : src.row i = cs.flatten)
  (h : ∀ c ∈ cs, IsUtf8Char c) (hascii : ∀ b ∈ cs.flatten, IsAscii b)

include hsrc hi hrow h hascii

theorem size_of_isAscii : (src.getSlice i).size = cs.length := by
  rw [← hsrc.row_length hi, hrow, length_flatten_of_isAscii h hascii]

theorem asciiSubstrRow_suffix_iff_left (hpos : 0 < offset) (hmax : offset < 2147483648)
    (hlen : InInt len) :
    ((asciiSubstrRow false (offset - 1) len (src.getSlice i)).Held src.bytes ∧
        (asciiSubstrRow false (offset - 1) len (src.getSlice i)).value src.bytes =
          utf8Suffix cs offset) ↔
      KeepsSuffix offset len (src.row i).length := by
  have hsize := size_of_isAscii hsrc hi hrow h hascii
  have hlength := hsrc.row_length hi
  have hbound := hsrc.row_length_lt hi
  have hcast := toSizeT_of_nonneg (x := offset - 1) (by omega) (by omega)
  unfold asciiSubstrRow utf8Suffix KeepsSuffix
  rw [if_pos hpos, if_pos hpos]
  simp only [Bool.false_eq_true, if_false]
  by_cases hout : (src.getSlice i).size = 0 ∨ ((src.getSlice i).size : ℤ) < offset - 1
  · have hnil : (cs.drop (offset - 1).toNat).flatten = [] := by
      rw [List.drop_eq_nil_of_le (by omega), List.flatten_nil]
    have hpiece : ∀ p : Piece, (if (src.getSlice i).size = 0 then Piece.empty
        else if (src.getSlice i).size < toSizeT (offset - 1) then .empty else p) = .empty := by
      intro p
      split_ifs <;> first | rfl | omega
    rw [hnil, hpiece]
    exact iff_of_true ⟨trivial, rfl⟩ (by omega)
  · rw [if_neg (by omega), if_neg (by omega),
      ← drop_flatten_of_isAscii h hascii (by omega), ← hrow]
    have hfirst : ((src.getSlice i).data : ℤ) + (offset - 1) =
        ((src.getSlice i).data + (offset - 1).toNat : ℕ) := by omega
    rw [hfirst, range_eq_rest_iff hsrc hi (by omega), Slice.stop, Nat.cast_add, add_right_inj,
      asciiEnd_eq_iff (by omega) (by omega) (by omega) (by omega) hlen]
    omega

theorem asciiSubstrRow_suffix_iff_right (hneg : offset < 0) (hmin : -2147483648 < offset)
    (hlen : InInt len) :
    ((asciiSubstrRow true offset len (src.getSlice i)).Held src.bytes ∧
        (asciiSubstrRow true offset len (src.getSlice i)).value src.bytes =
          utf8Suffix cs offset) ↔
      KeepsSuffix offset len (src.row i).length := by
  have hsize := size_of_isAscii hsrc hi hrow h hascii
  have hlength := hsrc.row_length hi
  have hbound := hsrc.row_length_lt hi
  unfold asciiSubstrRow utf8Suffix KeepsSuffix
  rw [if_neg (by omega : ¬ 0 < offset), if_neg (by omega : ¬ 0 < offset)]
  simp only [if_true]
  rcases Nat.lt_or_ge cs.length (-offset).toNat with hshort | hlong
  · have hwrap : wrap32 (offset + (src.getSlice i).size) = offset + (src.getSlice i).size :=
      wrap32_of_inInt ⟨by omega, by omega⟩
    rw [hwrap, if_pos hshort, if_pos (by omega : offset + ((src.getSlice i).size : ℤ) < 0),
      ite_self]
    exact iff_of_true ⟨trivial, rfl⟩ (by omega)
  rw [if_neg (by omega : ¬ cs.length < (-offset).toNat), if_neg (by omega),
    ← drop_flatten_of_isAscii h hascii (Nat.sub_le _ _), ← hrow]
  rcases lt_or_ge (offset + (src.getSlice i).size) 2147483648 with hin | hover
  · have hwrap : wrap32 (offset + (src.getSlice i).size) = offset + (src.getSlice i).size :=
      wrap32_of_inInt ⟨by omega, by omega⟩
    have hfirst : ((src.getSlice i).data : ℤ) + (offset + (src.getSlice i).size) =
        ((src.getSlice i).data + (cs.length - (-offset).toNat) : ℕ) := by omega
    rw [hwrap, if_neg (by omega), hfirst, range_eq_rest_iff hsrc hi (by omega), Slice.stop,
      Nat.cast_add, add_right_inj,
      asciiEnd_eq_iff (by omega) (by omega) (by omega) (by omega) hlen]
    omega
  · -- the first position overflows: nothing is appended where characters are due
    have hwrap : wrap32 (offset + (src.getSlice i).size) < 0 := by unfold wrap32; omega
    rw [if_pos hwrap]
    constructor
    · rintro ⟨-, hvalue⟩
      have hempty := congrArg List.length hvalue
      simp only [Piece.value, List.length_nil, List.length_drop] at hempty
      omega
    · rintro ⟨hlt, -⟩
      omega

end Ascii

/-! ## The suffix -/

/-- The body yields the suffix exactly where the ASCII kernel is not in
use or keeps it. -/
theorem substrBody_suffix_iff (simd : Simd) (checkAscii lookupTable : Bool)
    (hsrc : src.OffsetsOk) (hi : i < src.size) (hrow : src.row i = cs.flatten)
    (h : ∀ c ∈ cs, IsUtf8Char c) (hoff : offset ≠ 0) (hmin : -2147483648 < offset)
    (hmax : offset < 2147483648) (hlen : InInt len) :
    (∃ p, substrBody simd checkAscii false lookupTable src offset len (src.getSlice i) = some p ∧
        p.Held src.bytes ∧ p.value src.bytes = utf8Suffix cs offset) ↔
      (checkAscii = true → (∀ b ∈ src.bytes, IsAscii b) →
        KeepsSuffix offset len (src.row i).length) := by
  unfold substrBody
  by_cases hcheck : (checkAscii && validateAsciiFast simd src.bytes) = true
  · rw [if_pos hcheck]
    rw [Bool.and_eq_true, validateAsciiFast_iff] at hcheck
    obtain ⟨hflag, hall⟩ := hcheck
    have hascii := isAscii_of_row hrow hall
    rw [forall_prop_of_true hflag, forall_prop_of_true hall]
    by_cases hpos : 0 < offset
    · rw [if_pos hpos, ← asciiSubstrRow_suffix_iff_left hsrc hi hrow h hascii hpos hmax hlen]
      simp only [Option.some.injEq, exists_eq_left']
    · rw [if_neg hpos, ← asciiSubstrRow_suffix_iff_right hsrc hi hrow h hascii (by omega) hmin hlen]
      simp only [Option.some.injEq, exists_eq_left']
  · rw [if_neg hcheck]
    rw [Bool.and_eq_true, validateAsciiFast_iff, not_and] at hcheck
    refine iff_of_true ?_ fun hflag hall => absurd hall (hcheck hflag)
    have hyields : ∀ {r : Option Piece} {v : List Byte}, Yields src i r v →
        ∃ p, r = some p ∧ p.Held src.bytes ∧ p.value src.bytes = v :=
      fun ⟨p, hp, hwithin, hvalue⟩ => ⟨p, hp, hsrc.held_of_within hi hwithin, hvalue⟩
    unfold utf8Suffix
    by_cases hpos : 0 < offset
    · have hn : toSizeT (offset - 1) = (offset - 1).toNat := by unfold toSizeT; omega
      rw [if_pos hpos, if_pos hpos, ← hn]
      exact hyields (yields_left_suffix hsrc hi hrow h lookupTable (offset - 1) len)
    · have hcast : wrap32 (-offset) = ((-offset).toNat : ℤ) := by
        rw [wrap32_of_inInt ⟨by omega, by omega⟩]
        omega
      rw [if_neg hpos, if_neg hpos, hcast]
      exact hyields (yields_right_suffix hsrc hi hrow h lookupTable (by omega) (by omega) len)

/-- **`substr` without a length appends the suffix of every row exactly
where an `int` counts the rows and its ASCII kernel, if in use, keeps
every suffix.** -/
theorem substr_suffix_iff (simd : Simd) (checkAscii lookupTable : Bool)
    {rows : List (List (List Byte))} (ht : IsText src rows) (hoff : offset ≠ 0)
    (hmin : -2147483648 < offset) (hmax : offset < 2147483648) (hlen : InInt len) :
    substr simd checkAscii false lookupTable src dst offset len =
        some (dst.appendAll (rows.map fun cs => utf8Suffix cs offset)) ↔
      rows.length < 2147483648 ∧ (checkAscii = true → (∀ b ∈ src.bytes, IsAscii b) →
        ∀ cs ∈ rows, KeepsSuffix offset len cs.flatten.length) := by
  have hshort : ∀ cs ∈ rows, (utf8Suffix cs offset).length < 4294967296 :=
    fun cs hcs => (length_utf8Suffix_le cs offset).trans_lt (ht.length_lt hcs)
  rw [substr_eq_forRows _ _ _ _ _ _ hoff,
    BinaryColumn.forRows_eq_appendAll_iff ht.offsets ht.size hshort]
  have hbody := fun (i : ℕ) (hi : i < rows.length) =>
    substrBody_suffix_iff simd checkAscii lookupTable ht.offsets (ht.size ▸ hi) (ht.row hi)
      (ht.char hi) hoff hmin hmax hlen
  refine and_congr_right fun _ => ⟨?_, ?_⟩
  · intro hp hflag hall cs hcs
    obtain ⟨i, hi, rfl⟩ := List.mem_iff_getElem.1 hcs
    rw [← ht.row hi]
    exact (hbody i hi).1 (hp i hi) hflag hall
  · intro hkeeps i hi
    refine (hbody i hi).2 fun hflag hall => ?_
    rw [ht.row hi]
    exact hkeeps hflag hall _ (List.getElem_mem hi)

/-- One row beyond ASCII takes the column off the ASCII kernel. -/
theorem substr_suffix_iff_mixedRows :
    substr .avx2 true false false (.ofRows (mixedRows.map List.flatten)) .new (-1) 0 =
      some (BinaryColumn.new.appendAll [[0xE4, 0xBD, 0xA0], [0x7A]]) :=
  (substr_suffix_iff .avx2 true false
    ⟨BinaryColumn.offsetsOk_ofRows (by decide), show _ = mixedRows.map List.flatten by decide,
      by decide +kernel⟩
    (by decide) (by decide) (by decide) ⟨by decide, by decide⟩).2
    ⟨by decide, fun _ hall => absurd (hall 0xE4 (by decide)) (by decide)⟩

/-- **A column of ASCII text is cut at `len`**: `bc` is due, `b` is
appended. -/
theorem substr_ne_suffix_ascii :
    substr .avx2 true false false (.ofRows [[0x61, 0x62, 0x63]]) .new 2 1 =
        some (BinaryColumn.new.appendAll [[0x62]]) ∧
      utf8Suffix [[0x61], [0x62], [0x63]] 2 = [0x62, 0x63] ∧
      substr .avx2 true false false (.ofRows [[0x61, 0x62, 0x63]]) .new 2 1 ≠
        some (BinaryColumn.new.appendAll [utf8Suffix [[0x61], [0x62], [0x63]] 2]) := by
  decide

end StringFunctions

end CppEtudes
