import CppEtudes.StringFunctions.SubstrSuffix
import CppEtudes.StringFunctions.Model.SubstrOld

/-!
# `substr_old` and `substr_new` against `substr`

Off ASCII text both earlier versions cut a row by the index of its
characters, and agree with `substr` as long as the `int` counter of the
index holds the end of every row (`yields_indexSubstrRow`) and an `int`
counts the rows. On ASCII text
`substr_old` has its own cut, right for positive offsets only, and
`substr_new` adds the length of the row to an offset that is already
counted from the left.
-/

namespace CppEtudes

namespace StringFunctions

open Machine

variable {src dst : BinaryColumn} {i : ℕ} {offset len : ℤ} {cs : List (List Byte)}
  {rows : List (List (List Byte))}

/-! ## The index of a row -/

section Index

variable (hsrc : src.OffsetsOk) (hi : i < src.size)
include hsrc hi

theorem utf8IndexFrom_eq (lookupTable : Bool) (fuel : ℕ) :
    ∀ k, utf8IndexFrom lookupTable src.bytes (src.getSlice i) fuel k =
      Scan.index (charSize lookupTable) 2147483648 fuel k ((src.row i).drop k) := by
  have hrow := hsrc.row_length hi
  induction fuel with
  | zero => intro k; rfl
  | succ fuel ih =>
    intro k
    rw [utf8IndexFrom]
    split_ifs with hk
    · have hlt : k < (src.row i).length := by omega
      rw [BinaryColumn.getD_row hk, List.drop_eq_getElem_cons hlt, Scan.index,
        ← List.drop_eq_getElem_cons hlt, List.getD_eq_getElem _ _ hlt]
      cases charSize lookupTable (src.row i)[k] with
      | none => rfl
      | some c =>
        simp only [Option.bind_eq_bind, Option.bind_some, intAdd, ih, List.drop_drop]
        split_ifs <;> rfl
    · rw [List.drop_eq_nil_of_le (by omega), Scan.index_nil]

/-- **The index of a row of whole characters**: where each of them
starts, and none once the counter has to pass `INT_MAX`. -/
def IndexOf (src : BinaryColumn) (i : ℕ) (cs : List (List Byte)) (index : Option (List ℕ)) : Prop :=
  index = if (src.row i).length < 2147483648 then
      some ((List.range cs.length).map fun j => (cs.take j).flatten.length)
    else none

/-- Either decoder finds it. -/
theorem utf8IndexFrom_flatten (hrow : src.row i = cs.flatten) (h : ∀ c ∈ cs, IsUtf8Char c)
    (lookupTable : Bool) :
    IndexOf src i cs
      (utf8IndexFrom lookupTable src.bytes (src.getSlice i) (src.getSlice i).size 0) := by
  have hcount := length_le_length_flatten h
  rw [IndexOf, utf8IndexFrom_eq hsrc hi, List.drop_zero, hrow,
    Scan.index_flatten _ 0 cs (fun c hc => charSize_isChar lookupTable (h c hc))
      (by rw [← hsrc.row_length hi, hrow]; exact hcount) (by omega)]
  simp only [Nat.zero_add]

/-! ## The cut by the index -/

theorem indexSubstrRow_of_long {getIndex : Slice → Option (List ℕ)}
    (hindex : IndexOf src i cs (getIndex (src.getSlice i)))
    (hlong : 2147483648 ≤ (src.row i).length) (negativeOffset : Bool) (offset len : ℤ) :
    indexSubstrRow getIndex negativeOffset offset len (src.getSlice i) = none := by
  have hsize := hsrc.row_length hi
  rw [indexSubstrRow, if_neg (by omega), hindex, if_neg (by omega)]
  rfl

/-- What the cut takes from the character at `pos` on. -/
theorem yields_cutByIndex (hrow : src.row i = cs.flatten) (h : ∀ c ∈ cs, IsUtf8Char c)
    (hshort : (src.row i).length < 2147483648) (pos : ℤ) (hpos : InInt pos) (hlen : 0 ≤ len)
    (hlen' : len < 2147483648) :
    Yields src i
      (some (cutByIndex ((List.range cs.length).map fun j => (cs.take j).flatten.length) pos len
        (src.getSlice i)))
      (if pos < 0 then [] else ((cs.drop pos.toNat).take len.toNat).flatten) := by
  obtain ⟨hpos₁, hpos₂⟩ := hpos
  have hcount : cs.length ≤ (src.row i).length := hrow ▸ length_le_length_flatten h
  have hsize := hsrc.row_length hi
  unfold cutByIndex
  simp only [List.length_map, List.length_range]
  rcases lt_or_ge pos 0 with hneg | hnonneg
  · rw [if_pos (Or.inr hneg), if_pos hneg]
    exact yields_empty src i
  have hcast : toSizeT pos = pos.toNat := by unfold toSizeT; omega
  rw [if_neg (by omega : ¬ pos < 0), hcast]
  by_cases hout : cs.length ≤ pos.toNat
  · rw [if_pos (Or.inl hout), List.drop_eq_nil_of_le hout, List.take_nil]
    exact yields_empty src i
  rw [if_neg (by omega)]
  -- positions in the row are values of an `int`
  have hat : ∀ k, k < cs.length →
      ((List.range cs.length).map fun j => (cs.take j).flatten.length).getD k 0 =
        (cs.take k).flatten.length := fun k hk => by simp [List.getD_eq_getElem?_getD, hk]
  have hprefix : ∀ k, (cs.take k).flatten.length ≤ (src.row i).length :=
    fun k => hrow ▸ length_flatten_take_le cs k
  have hstart := hprefix pos.toNat
  rw [hat _ (by omega), wrap32_of_inInt ⟨by omega, by omega⟩]
  by_cases hin : toSizeT (wrap32 (pos + len)) < cs.length
  · -- the character behind the last one is in the index
    have hsum : toSizeT (wrap32 (pos + len)) = pos.toNat + len.toNat := by
      have hlt : pos + len < 2147483648 := by
        by_contra hover
        have : wrap32 (pos + len) = pos + len - 4294967296 := by unfold wrap32; omega
        rw [this] at hin
        unfold toSizeT at hin
        omega
      rw [wrap32_of_inInt ⟨by omega, hlt⟩]
      unfold toSizeT
      omega
    have hend := hprefix (pos.toNat + len.toNat)
    have hle : (cs.take pos.toNat).flatten.length ≤
        (cs.take (pos.toNat + len.toNat)).flatten.length := by
      rw [List.take_add, List.flatten_append, List.length_append]
      omega
    rw [if_pos hin, hsum, hat _ (by omega), wrap32_of_inInt ⟨by omega, by omega⟩,
      ← take_drop_flatten, ← hrow]
    exact yields_range hsrc hi (by omega) (by omega) hle hend
  · -- as many characters as are left, or more
    have hall : cs.length ≤ pos.toNat + len.toNat := by
      by_contra hlt
      rw [wrap32_of_inInt ⟨by omega, by omega⟩] at hin
      unfold toSizeT at hin
      omega
    have hrest : (cs.drop pos.toNat).take len.toNat = cs.drop pos.toNat :=
      List.take_of_length_le (by rw [List.length_drop]; omega)
    have hlast : ((src.getSlice i).data : ℤ) + (cs.take pos.toNat).flatten.length +
        ((src.getSlice i).size - (cs.take pos.toNat).flatten.length) = (src.getSlice i).stop := by
      rw [Slice.stop]
      omega
    have hyield := yields_rest hsrc hi hstart
    rw [Nat.cast_add, hrow, drop_flatten_take] at hyield
    rwa [if_neg hin, wrap32_of_inInt ⟨by omega, by omega⟩, hlast, hrest]

/-- **Cutting by the index is taking the substring of characters**, from
the left, and from the right where negative offsets are honoured. -/
theorem yields_indexSubstrRow (hrow : src.row i = cs.flatten) (h : ∀ c ∈ cs, IsUtf8Char c)
    (hshort : (src.row i).length < 2147483648) {getIndex : Slice → Option (List ℕ)}
    (hindex : IndexOf src i cs (getIndex (src.getSlice i))) {negativeOffset : Bool}
    (hoff : 0 < offset ∨ (offset < 0 ∧ negativeOffset = true)) (hin : InInt offset)
    (hlen : 0 ≤ len) (hlen' : len < 2147483648) :
    Yields src i
      (indexSubstrRow getIndex negativeOffset (if 0 < offset then offset - 1 else offset) len
        (src.getSlice i))
      (utf8Substr cs offset len) := by
  have hsize := hsrc.row_length hi
  have hcount : cs.length ≤ (src.row i).length := hrow ▸ length_le_length_flatten h
  obtain ⟨hin₁, hin₂⟩ := hin
  unfold indexSubstrRow
  by_cases hempty : (src.getSlice i).size = 0
  · obtain rfl : cs = [] := List.length_eq_zero_iff.1 (by omega)
    rw [if_pos hempty]
    simpa [utf8Substr] using yields_empty src i
  rw [if_neg hempty, hindex, if_pos hshort]
  simp only [Option.bind_eq_bind, Option.bind_some, Option.pure_def, List.length_map,
    List.length_range]
  unfold utf8Substr
  rcases hoff with hpos | ⟨hneg, rfl⟩
  · have hyield := yields_cutByIndex hsrc hi hrow h hshort (offset - 1)
      ⟨by omega, by omega⟩ hlen hlen'
    rw [if_neg (by omega : ¬ offset - 1 < 0)] at hyield
    simpa only [if_pos hpos, decide_eq_false (by omega : ¬ offset - 1 < 0), Bool.and_false,
      Bool.false_eq_true, if_false] using hyield
  · have hyield := yields_cutByIndex hsrc hi hrow h hshort (offset + cs.length)
      ⟨by omega, by omega⟩ hlen hlen'
    have hnat : (offset + (cs.length : ℤ)).toNat = cs.length - (-offset).toNat := by omega
    have hwrap : wrap32 (offset + (cs.length : ℤ)) = offset + cs.length :=
      wrap32_of_inInt ⟨by omega, by omega⟩
    simp only [if_neg (by omega : ¬ 0 < offset), decide_eq_true hneg, Bool.and_self, if_true, hwrap]
    by_cases hfew : cs.length < (-offset).toNat
    · rw [if_pos hfew]
      rwa [if_pos (by omega : offset + (cs.length : ℤ) < 0)] at hyield
    · rw [if_neg hfew, take_min_drop (by omega)]
      rwa [if_neg (by omega : ¬ offset + (cs.length : ℤ) < 0), hnat] at hyield

end Index

/-! ## `substr` from the left, on rows of any length -/

/-- With the sum of offset and length inside `int`, the kernel from the
left ends where it should on rows an `int` cannot address, too. -/
theorem asciiSubstrRow_left {s : Slice} (hs : s.size < 4294967296) {f : ℤ} (hf : 0 ≤ f)
    (hlen : 0 ≤ len) (hsum : f + len < 2147483648) :
    asciiSubstrRow false f len s =
      if s.size = 0 ∨ f < 0 ∨ (s.size : ℤ) < f then .empty
      else .range (s.data + f) (s.data + min (f + len) s.size) := by
  have hcast := toSizeT_of_nonneg hf (by omega)
  have hcast' := toSizeT_of_nonneg (x := f + len) (by omega) (by omega)
  have hwrap : wrap32 (f + len) = f + len := wrap32_of_inInt ⟨by omega, hsum⟩
  unfold asciiSubstrRow
  simp only [Bool.false_eq_true, if_false, hwrap]
  by_cases hout : s.size = 0 ∨ f < 0 ∨ (s.size : ℤ) < f
  · rw [if_pos hout]
    split_ifs <;> first | rfl | omega
  · rw [if_neg hout, if_neg (by omega), if_neg (by omega)]
    congr 2
    split_ifs
    · rw [wrap32_of_inInt ⟨by omega, by omega⟩]
      omega
    · omega

theorem yields_substrBody_left (simd : Simd) (checkAscii lookupTable : Bool)
    (hsrc : src.OffsetsOk) (hi : i < src.size) (hrow : src.row i = cs.flatten)
    (h : ∀ c ∈ cs, IsUtf8Char c) (hoff : 0 < offset) (hlen : 0 ≤ len)
    (hsum : offset + len < 2147483648) :
    Yields src i (substrBody simd checkAscii true lookupTable src offset len (src.getSlice i))
      (utf8Substr cs offset len) := by
  unfold substrBody utf8Substr
  by_cases hcheck : (checkAscii && validateAsciiFast simd src.bytes) = true
  · rw [if_pos hcheck, if_pos hoff, if_pos hoff]
    rw [Bool.and_eq_true, validateAsciiFast_iff] at hcheck
    have hascii := isAscii_of_row hrow hcheck.2
    have hbound : (src.getSlice i).size < 4294967296 :=
      hsrc.row_length hi ▸ hsrc.row_length_lt hi
    rw [asciiSubstrRow_left hbound (by omega) hlen (by omega)]
    have hyield := yields_ascii hsrc hi hrow h hascii (f := offset - 1) hlen
    rwa [if_neg (by omega : ¬ offset - 1 < 0)] at hyield
  · rw [if_neg hcheck, if_pos hoff, if_pos hoff]
    have hn : toSizeT (offset - 1) = (offset - 1).toNat := by unfold toSizeT; omega
    have hm : toSizeT len = len.toNat := by unfold toSizeT; omega
    rw [← hn, ← hm]
    exact yields_left hsrc hi hrow h lookupTable (offset - 1) len

/-- **`substr` from the left, with any number of bytes.** -/
theorem substr_left (ht : IsText src rows) (hcount : rows.length < 2147483648) (simd : Simd)
    (checkAscii lookupTable : Bool) (hoff : 0 < offset) (hlen : 0 ≤ len)
    (hsum : offset + len < 2147483648) :
    substr simd checkAscii true lookupTable src dst offset len =
      some (dst.appendAll (rows.map fun cs => utf8Substr cs offset len)) := by
  rw [substr_eq_forRows _ _ _ _ _ _ (by omega)]
  exact ht.forRows_eq hcount fun i hi =>
    yields_substrBody_left simd checkAscii lookupTable ht.offsets
      (ht.size ▸ hi) (ht.row hi) (ht.char hi) hoff hlen hsum

/-! ## `substr_old` -/

/-- **The column can be cut by an index**: an `int` counts its rows, and
it is ASCII or an `int` holds the end of every row. -/
def Indexable (src : BinaryColumn) (rows : List (List (List Byte))) : Prop :=
  rows.length < 2147483648 ∧
    ((∀ b ∈ src.bytes, IsAscii b) ∨ ∀ cs ∈ rows, cs.flatten.length < 2147483648)

/-- On ASCII text and a positive offset `substr_old` takes what `substr`
takes; only a row that ends right before the offset is told apart. -/
theorem yields_substrOldAsciiRow (hsrc : src.OffsetsOk) (hi : i < src.size)
    (hrow : src.row i = cs.flatten) (h : ∀ c ∈ cs, IsUtf8Char c)
    (hascii : ∀ b ∈ cs.flatten, IsAscii b) (hoff : 0 < offset) (hlen : 0 ≤ len)
    (hsum : offset + len < 2147483648) :
    Yields src i (some (substrOldAsciiRow offset len (src.getSlice i)))
      (utf8Substr cs offset len) := by
  have hcount := size_of_isAscii hsrc hi hrow h hascii
  have hcast := toSizeT_of_nonneg (x := offset) (by omega) (by omega)
  have hcast' := toSizeT_of_nonneg (x := offset + len) (by omega) (by omega)
  have hbound : (src.getSlice i).size < 4294967296 := hsrc.row_length hi ▸ hsrc.row_length_lt hi
  unfold substrOldAsciiRow utf8Substr
  simp only [wrap32_of_inInt (x := offset - 1) ⟨by omega, by omega⟩,
    wrap32_of_inInt (x := offset + len) ⟨by omega, by omega⟩]
  rw [if_pos hoff]
  by_cases hout : (src.getSlice i).size = 0 ∨ (src.getSlice i).size < toSizeT offset
  · rw [if_pos hout, List.drop_eq_nil_of_le (by omega), List.take_nil]
    exact yields_empty src i
  · have hlast : (src.getSlice i).data + (offset - 1) +
        (if (src.getSlice i).size < toSizeT (offset + len) then
          wrap32 ((src.getSlice i).size - (offset - 1)) else len) =
        (src.getSlice i).data + min (offset - 1 + len) (src.getSlice i).size := by
      split_ifs
      · rw [wrap32_of_inInt ⟨by omega, by omega⟩]
        omega
      · omega
    have hyield := yields_ascii hsrc hi hrow h hascii (f := offset - 1) hlen
    rw [if_neg (by omega), if_neg (by omega : ¬ offset - 1 < 0)] at hyield
    rwa [if_neg hout, hlast]

/-- Off ASCII text a row past `INT_MAX`, or as many rows, leave the loop
without a result. -/
theorem forRows_index_eq_none (ht : IsText src rows) (lookupTable negativeOffset : Bool)
    (offset len : ℤ)
    (hlong : 2147483648 ≤ rows.length ∨ ∃ cs ∈ rows, 2147483648 ≤ cs.flatten.length) :
    src.forRowsSizeT (indexSubstrRow (fun s => utf8IndexFrom lookupTable src.bytes s s.size 0)
      negativeOffset offset len) dst = none := by
  rw [BinaryColumn.forRowsSizeT_eq, Option.eq_none_iff_forall_ne_some]
  intro d hd
  obtain ⟨hcount, hpiece⟩ := BinaryColumn.held_of_forRows hd
  obtain ⟨cs, hcs, hlong⟩ := hlong.resolve_left (by rw [← ht.size]; omega)
  obtain ⟨i, hi, rfl⟩ := List.mem_iff_getElem.1 hcs
  have hi' : i < src.size := ht.size ▸ hi
  obtain ⟨p, hp, -⟩ := hpiece i hi'
  have hindex := utf8IndexFrom_flatten ht.offsets hi' (ht.row hi) (ht.char hi) lookupTable
  rw [indexSubstrRow_of_long ht.offsets hi' hindex (by rw [ht.row hi]; exact hlong)] at hp
  cases hp

/-- And short rows give it one. -/
theorem forRows_index_eq (ht : IsText src rows) (hcount : rows.length < 2147483648)
    (hshort : ∀ cs ∈ rows, cs.flatten.length < 2147483648) (lookupTable : Bool)
    {negativeOffset : Bool} (hoff : 0 < offset ∨ (offset < 0 ∧ negativeOffset = true))
    (hin : InInt offset) (hlen : 0 ≤ len) (hlen' : len < 2147483648) :
    src.forRowsSizeT (indexSubstrRow (fun s => utf8IndexFrom lookupTable src.bytes s s.size 0)
      negativeOffset (if 0 < offset then offset - 1 else offset) len) dst =
      some (dst.appendAll (rows.map fun cs => utf8Substr cs offset len)) := by
  rw [BinaryColumn.forRowsSizeT_eq]
  refine ht.forRows_eq hcount fun i hi => ?_
  have hi' : i < src.size := ht.size ▸ hi
  exact yields_indexSubstrRow ht.offsets hi' (ht.row hi) (ht.char hi)
    (by rw [ht.row hi]; exact hshort _ (List.getElem_mem hi))
    (utf8IndexFrom_flatten ht.offsets hi' (ht.row hi) (ht.char hi) lookupTable) hoff hin hlen hlen'

/-- **`substr_old` agrees with `substr` from the left** on every column it
can index. -/
theorem substrOld_eq_substr (simd : Simd) (negativeOffset lookupTable : Bool)
    {rows : List (List (List Byte))} (ht : IsText src rows) (hfit : Indexable src rows)
    (hoff : 1 ≤ offset) (hlen : 0 ≤ len) (hsum : offset + len < 2147483648) :
    ∃ d, substrOld simd negativeOffset src dst offset len = some d ∧
      substr simd true true lookupTable src dst offset len = some d := by
  refine ⟨_, ?_, substr_left ht hfit.1 simd true lookupTable (by omega) hlen hsum⟩
  unfold substrOld
  by_cases hascii : ∀ b ∈ src.bytes, IsAscii b
  · rw [if_pos ((validateAsciiFast_iff simd _).2 hascii)]
    exact ht.forRows_eq hfit.1 fun i hi =>
      yields_substrOldAsciiRow ht.offsets (ht.size ▸ hi) (ht.row hi) (ht.char hi)
        (fun b hb => hascii b (ht.mem_bytes (List.getElem_mem hi) hb)) (by omega) hlen hsum
  · rw [if_neg fun hc => hascii ((validateAsciiFast_iff simd _).1 hc)]
    exact forRows_index_eq ht hfit.1 (hfit.2.resolve_left hascii) true (Or.inl (by omega))
      ⟨by omega, by omega⟩ hlen (by omega)

/-- Two gigabytes of two-byte characters in one row, and one more. -/
def longRow : List (List Byte) := List.replicate 1073741825 [0xC3, 0xA9]

theorem length_flatten_longRow : longRow.flatten.length = 2147483650 := by
  rw [List.length_flatten, longRow, List.map_replicate, List.sum_replicate_nat, List.length_cons,
    List.length_singleton]

theorem isText_longRow : IsText (.ofRows [longRow.flatten]) [longRow] := by
  have hlt : [longRow.flatten].flatten.length < 4294967296 := by
    rw [List.flatten_singleton, length_flatten_longRow]
    omega
  refine ⟨BinaryColumn.offsetsOk_ofRows hlt, BinaryColumn.toVector_ofRows hlt, ?_⟩
  intro cs hcs c hc
  obtain rfl := List.mem_singleton.1 hcs
  obtain rfl := List.eq_of_mem_replicate hc
  decide

/-- **Past `INT_MAX` the index of `substr_old` has no result**, while
`substr` takes the last character. -/
theorem substrOld_longRow :
    substrOld .avx2 false (.ofRows [longRow.flatten]) .new 1073741825 1 = none ∧
      substr .avx2 true true false (.ofRows [longRow.flatten]) .new 1073741825 1 =
        some (BinaryColumn.new.appendAll [[0xC3, 0xA9]]) := by
  have hmem : (0xC3 : Byte) ∈ (BinaryColumn.ofRows [longRow.flatten]).bytes :=
    isText_longRow.mem_bytes (List.mem_singleton_self _)
      (List.mem_flatten.2 ⟨[0xC3, 0xA9], List.mem_replicate.2 ⟨by omega, rfl⟩, by decide⟩)
  constructor
  · rw [substrOld, if_neg fun hc => absurd ((validateAsciiFast_iff _ _).1 hc _ hmem) (by decide)]
    exact forRows_index_eq_none isText_longRow true false _ _
      (Or.inr ⟨_, List.mem_singleton_self _, by rw [length_flatten_longRow]; omega⟩)
  · have hlast : utf8Substr longRow 1073741825 1 = [0xC3, 0xA9] := by
      rw [utf8Substr, if_pos (by omega)]
      change ((longRow.drop 1073741824).take 1).flatten = _
      rw [longRow, List.drop_replicate, List.take_replicate, Nat.min_eq_left (by omega)]
      rfl
    rw [substr_left isText_longRow (by decide) _ _ _ (by omega) (by omega) (by omega),
      List.map_singleton, hlast]

theorem substrOld_eq_substr_mixedRows :
    ∃ d, substrOld .avx2 false (.ofRows (mixedRows.map List.flatten)) .new 2 5 = some d ∧
      substr .avx2 true true false (.ofRows (mixedRows.map List.flatten)) .new 2 5 = some d :=
  substrOld_eq_substr .avx2 false false
    ⟨BinaryColumn.offsetsOk_ofRows (by decide), show _ = mixedRows.map List.flatten by decide,
      by decide +kernel⟩
    ⟨by decide, Or.inr (by decide +kernel)⟩ (by decide) (by decide) (by decide)

/-! ## Negative offsets of `substr_old` -/

/-- What `substr_old<true>` appends for row `i`, into an empty column. -/
def substrOldAnswer (simd : Simd) (src : BinaryColumn) (offset len : ℤ) (i : ℕ) :
    Option (List Byte) :=
  (substrOld simd true src .new offset len).map fun d => d.row i

theorem length_utf8Substr_le (cs : List (List Byte)) (offset len : ℤ) :
    (utf8Substr cs offset len).length ≤ cs.flatten.length := by
  have hpart : ∀ a m, ((cs.drop a).take m).flatten.length ≤ cs.flatten.length :=
    fun a m => (length_flatten_take_le _ _).trans (length_flatten_drop_le _ _)
  unfold utf8Substr
  split_ifs
  · exact hpart _ _
  · exact Nat.zero_le _
  · exact hpart _ _

/-- From the right nothing is taken only of a row that is too short, or
where nothing is asked for. -/
theorem utf8Substr_eq_nil_iff (h : ∀ c ∈ cs, IsUtf8Char c) (hneg : offset < 0) (hlen : 0 ≤ len) :
    utf8Substr cs offset len = [] ↔ cs.length < (-offset).toNat ∨ len = 0 := by
  unfold utf8Substr
  rw [if_neg (by omega)]
  split_ifs with hshort
  · exact iff_of_true rfl (Or.inl hshort)
  · have hpart : ∀ c ∈ (cs.drop (cs.length - (-offset).toNat)).take
        (min len.toNat (-offset).toNat), IsUtf8Char c :=
      fun c hc => h c (List.mem_of_mem_drop (List.mem_of_mem_take hc))
    have hcount := length_le_length_flatten hpart
    rw [List.length_take, List.length_drop] at hcount
    constructor
    · intro hnil
      rw [hnil, List.length_nil] at hcount
      omega
    · rintro (hc | rfl)
      · exact absurd hc hshort
      · simp

section Rows

theorem length_flatten_map_le {f : List (List Byte) → List Byte}
    (hf : ∀ cs ∈ rows, (f cs).length ≤ cs.flatten.length) :
    (rows.map f).flatten.length ≤ (rows.map List.flatten).flatten.length := by
  induction rows with
  | nil => exact le_rfl
  | cons cs rows ih =>
    have hhead := hf cs (by simp)
    have htail := ih fun cs hcs => hf cs (by simp [hcs])
    simp only [List.map_cons, List.flatten_cons, List.length_append]
    omega

/-- A column of parts of the rows, read back. -/
theorem row_appendAll_of_isText (ht : IsText src rows) {f : List (List Byte) → List Byte}
    (hf : ∀ cs ∈ rows, (f cs).length ≤ cs.flatten.length) (hi : rows[i]? = some cs) :
    (BinaryColumn.new.appendAll (rows.map f)).row i = f cs := by
  obtain ⟨hlt, rfl⟩ := List.getElem?_eq_some_iff.1 hi
  have hbytes : (rows.map List.flatten).flatten.length < 4294967296 := by
    rw [← ht.toVector, ht.offsets.flatten_toVector]
    exact ht.offsets.bound
  have hrow := BinaryColumn.row_ofRows ((length_flatten_map_le hf).trans_lt hbytes) (i := i)
    (by rwa [List.length_map])
  rwa [List.getElem_map] at hrow

variable (simd : Simd)

/-- On ASCII text a negative offset is a huge `size_t`: nothing is
appended to any row. -/
theorem substrOldAnswer_ascii (ht : IsText src rows) (hcount : rows.length < 2147483648)
    (hascii : ∀ b ∈ src.bytes, IsAscii b)
    (hi : rows[i]? = some cs) (hneg : offset < 0) (hmin : -2147483648 < offset) (len : ℤ) :
    substrOldAnswer simd src offset len i = some [] := by
  have hresult : substrOld simd true src .new offset len =
      some (BinaryColumn.new.appendAll (rows.map fun _ => [])) := by
    rw [substrOld, if_pos ((validateAsciiFast_iff simd _).2 hascii)]
    refine ht.forRows_eq hcount fun i hi => ?_
    have hsize := ht.offsets.row_length (ht.size ▸ hi)
    have hbound := ht.offsets.row_length_lt (ht.size ▸ hi)
    rw [substrOldAsciiRow, if_pos (Or.inr (by unfold toSizeT; omega))]
    exact yields_empty src i
  rw [substrOldAnswer, hresult, Option.map_some,
    row_appendAll_of_isText ht (fun _ _ => Nat.zero_le _) hi]

/-- Off it the row gets its substring from the right. -/
theorem substrOldAnswer_index (ht : IsText src rows) (hcount : rows.length < 2147483648)
    (hascii : ¬ ∀ b ∈ src.bytes, IsAscii b)
    (hshort : ∀ cs ∈ rows, cs.flatten.length < 2147483648) (hi : rows[i]? = some cs)
    (hneg : offset < 0) (hmin : -2147483648 < offset) (hlen : 0 ≤ len) (hlen' : len < 2147483648) :
    substrOldAnswer simd src offset len i = some (utf8Substr cs offset len) := by
  have hresult : substrOld simd true src .new offset len =
      some (BinaryColumn.new.appendAll (rows.map fun cs => utf8Substr cs offset len)) := by
    rw [substrOld, if_neg fun hc => hascii ((validateAsciiFast_iff simd _).1 hc)]
    exact forRows_index_eq ht hcount hshort true (Or.inr ⟨hneg, rfl⟩) ⟨by omega, by omega⟩
      hlen hlen'
  rw [substrOldAnswer, hresult, Option.map_some,
    row_appendAll_of_isText ht (fun cs _ => length_utf8Substr_le cs offset len) hi]

theorem indexable_of_substrOldAnswer (ht : IsText src rows) {v : List Byte}
    (h : substrOldAnswer simd src offset len i = some v) : Indexable src rows := by
  obtain ⟨d, hd, -⟩ := Option.map_eq_some_iff.1 h
  unfold substrOld at hd
  by_cases hascii : ∀ b ∈ src.bytes, IsAscii b
  · rw [if_pos ((validateAsciiFast_iff simd _).2 hascii)] at hd
    exact ⟨ht.size ▸ (BinaryColumn.held_of_forRows hd).1, Or.inl hascii⟩
  · rw [if_neg fun hc => hascii ((validateAsciiFast_iff simd _).1 hc)] at hd
    by_contra hfit
    have hlong : 2147483648 ≤ rows.length ∨ ∃ cs ∈ rows, 2147483648 ≤ cs.flatten.length := by
      simpa only [Indexable, not_and_or, not_or, not_forall, not_lt, hascii, not_false_eq_true,
        true_and, exists_prop] using hfit
    exact absurd ((forRows_index_eq_none ht true true _ _ hlong).symm.trans hd) (by simp)

/-- **The answer for a row is the same in two columns** exactly where both
can be indexed and either both are ASCII text or none, or the row's
substring is empty. -/
theorem substrOldAnswer_eq_iff {A B : BinaryColumn} {rowsA rowsB : List (List (List Byte))}
    {j : ℕ} (hA : IsText A rowsA) (hB : IsText B rowsB) (hi : rowsA[i]? = some cs)
    (hj : rowsB[j]? = some cs) (hneg : offset < 0) (hmin : -2147483648 < offset) (hlen : 0 ≤ len)
    (hlen' : len < 2147483648) :
    (∃ v, substrOldAnswer simd A offset len i = some v ∧
        substrOldAnswer simd B offset len j = some v) ↔
      Indexable A rowsA ∧ Indexable B rowsB ∧
        (((∀ b ∈ A.bytes, IsAscii b) ↔ ∀ b ∈ B.bytes, IsAscii b) ∨
          cs.length < (-offset).toNat ∨ len = 0) := by
  have hvalid : ∀ c ∈ cs, IsUtf8Char c := hA.valid cs (List.mem_of_getElem? hi)
  rw [← utf8Substr_eq_nil_iff hvalid hneg hlen]
  have hfits : (∃ v, substrOldAnswer simd A offset len i = some v ∧
      substrOldAnswer simd B offset len j = some v) → Indexable A rowsA ∧ Indexable B rowsB :=
    fun ⟨_, ha, hb⟩ =>
      ⟨indexable_of_substrOldAnswer simd hA ha, indexable_of_substrOldAnswer simd hB hb⟩
  by_cases hfit : Indexable A rowsA ∧ Indexable B rowsB
  swap
  · exact iff_of_false (fun h => hfit (hfits h)) fun h => hfit ⟨h.1, h.2.1⟩
  obtain ⟨hfitA, hfitB⟩ := hfit
  simp only [hfitA, hfitB, true_and]
  -- which branch each of the columns takes
  by_cases ha : ∀ b ∈ A.bytes, IsAscii b <;> by_cases hb : ∀ b ∈ B.bytes, IsAscii b
  · rw [substrOldAnswer_ascii simd hA hfitA.1 ha hi hneg hmin,
      substrOldAnswer_ascii simd hB hfitB.1 hb hj hneg hmin]
    exact iff_of_true ⟨[], rfl, rfl⟩ (Or.inl (iff_of_true ha hb))
  · rw [substrOldAnswer_ascii simd hA hfitA.1 ha hi hneg hmin, substrOldAnswer_index simd hB
      hfitB.1 hb (hfitB.2.resolve_left hb) hj hneg hmin hlen hlen',
      or_iff_right fun he => hb (he.1 ha)]
    simp only [Option.some.injEq, exists_eq_left']
  · rw [substrOldAnswer_index simd hA hfitA.1 ha (hfitA.2.resolve_left ha) hi hneg hmin hlen hlen',
      substrOldAnswer_ascii simd hB hfitB.1 hb hj hneg hmin, or_iff_right fun he => ha (he.2 hb)]
    simp only [Option.some.injEq, exists_eq_left']
    exact eq_comm
  · rw [substrOldAnswer_index simd hA hfitA.1 ha (hfitA.2.resolve_left ha) hi hneg hmin hlen hlen',
      substrOldAnswer_index simd hB hfitB.1 hb (hfitB.2.resolve_left hb) hj hneg hmin hlen hlen']
    exact iff_of_true ⟨_, rfl, rfl⟩ (Or.inl (iff_of_false ha hb))

end Rows

/-- The row `abc` between others that are not ASCII. -/
theorem substrOldAnswer_eq_iff_mixed :
    ∃ v, substrOldAnswer .avx2 (.ofRows [[0x61, 0x62, 0x63], [0xC3, 0xA9]]) (-2) 1 0 = some v ∧
      substrOldAnswer .avx2 (.ofRows [[0xE4, 0xBD, 0xA0], [0x61, 0x62, 0x63]]) (-2) 1 1 = some v :=
  (substrOldAnswer_eq_iff .avx2
    (show IsText _ [[[0x61], [0x62], [0x63]], [[0xC3, 0xA9]]] from
      ⟨BinaryColumn.offsetsOk_ofRows (by decide), by decide, by decide⟩)
    (show IsText _ [[[0xE4, 0xBD, 0xA0]], [[0x61], [0x62], [0x63]]] from
      ⟨BinaryColumn.offsetsOk_ofRows (by decide), by decide, by decide⟩)
    rfl rfl (by decide) (by decide) (by decide) (by decide)).2
    ⟨⟨by decide, Or.inr (by decide)⟩, ⟨by decide, Or.inr (by decide)⟩, Or.inl (iff_of_false
      (fun h => absurd (h 0xC3 (by decide)) (by decide))
      (fun h => absurd (h 0xE4 (by decide)) (by decide)))⟩

/-- **The answer for `abc` depends on its column**: nothing on its own,
`b` beside a row that is not ASCII. -/
theorem substrOldAnswer_ne_mixed :
    substrOldAnswer .avx2 (.ofRows [[0x61, 0x62, 0x63]]) (-2) 1 0 = some [] ∧
      substrOldAnswer .avx2 (.ofRows [[0x61, 0x62, 0x63], [0xC3, 0xA9]]) (-2) 1 0 =
        some [0x62] := by
  decide

end StringFunctions

end CppEtudes
