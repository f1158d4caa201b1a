import CppEtudes.StringFunctions.SubstrOld

/-!
# `substr_new` against `substr`

Off ASCII text `substr_new` cuts by its index and agrees with `substr`
where it can index the column. On ASCII text it hands a positive offset
to the kernel for negative ones, which adds the length of the row: the
range starts behind the row's end, unless the sum leaves `int`.
-/

namespace CppEtudes

namespace StringFunctions

open Machine

variable {src dst : BinaryColumn} {i : ℕ} {offset len : ℤ} {cs : List (List Byte)}

/-- **The ASCII row survives the wrong kernel**: it is empty; or its
length and the offset sum to a negative `int` and nothing is due; or the
sum passes zero again, and where it then points the row holds the
characters that are due. -/
def SurvivesAscii (offset len : ℤ) (row : List Byte) : Prop :=
  row = [] ∨
    (2147483648 ≤ row.length + offset ∧ row.length + offset < 4294967296 ∧
      ((row.length : ℤ) < offset ∨ len = 0)) ∨
    (4294967296 ≤ row.length + offset ∧
      (row.drop (row.length + offset - 4294967296).toNat).take len.toNat =
        (row.drop (offset - 1).toNat).take len.toNat)

/-- In ASCII text characters are bytes. -/
theorem utf8Substr_of_isAscii (h : ∀ c ∈ cs, IsUtf8Char c) (hascii : ∀ b ∈ cs.flatten, IsAscii b)
    (hoff : 0 < offset) :
    utf8Substr cs offset len = (cs.flatten.drop (offset - 1).toNat).take len.toNat := by
  have hlength := length_flatten_of_isAscii h hascii
  rw [utf8Substr, if_pos hoff]
  rcases Nat.lt_or_ge cs.length (offset - 1).toNat with hout | hin
  · rw [List.drop_eq_nil_of_le hout.le, List.drop_eq_nil_of_le (by omega), List.take_nil,
      List.take_nil, List.flatten_nil]
  · have hrest : ∀ c ∈ cs.drop (offset - 1).toNat, IsUtf8Char c :=
      fun c hc => h c (List.mem_of_mem_drop hc)
    have hbytes : ∀ b ∈ (cs.drop (offset - 1).toNat).flatten, IsAscii b := by
      rw [← drop_flatten_of_isAscii h hascii hin]
      exact fun b hb => hascii b (List.mem_of_mem_drop hb)
    rw [drop_flatten_of_isAscii h hascii hin, ← take_flatten_take,
      length_flatten_take_of_isAscii hrest hbytes, ← length_flatten_of_isAscii hrest hbytes,
      ← List.take_take, List.take_length]

theorem asciiSubstrRow_true_iff (hsrc : src.OffsetsOk) (hi : i < src.size)
    (hrow : src.row i = cs.flatten) (h : ∀ c ∈ cs, IsUtf8Char c)
    (hascii : ∀ b ∈ cs.flatten, IsAscii b) (hoff : 0 < offset) (hlen : 0 ≤ len)
    (hsum : offset + len < 2147483648) :
    ((asciiSubstrRow true offset len (src.getSlice i)).Held src.bytes ∧
        (asciiSubstrRow true offset len (src.getSlice i)).value src.bytes =
          utf8Substr cs offset len) ↔
      SurvivesAscii offset len (src.row i) := by
  have hsize := hsrc.row_length hi
  have hbound := hsrc.row_length_lt hi
  have hnil : src.row i = [] ↔ (src.getSlice i).size = 0 := by
    rw [← hsize, List.length_eq_zero_iff]
  rw [utf8Substr_of_isAscii h hascii hoff, ← hrow]
  unfold asciiSubstrRow SurvivesAscii
  simp only [if_true, hnil]
  by_cases hempty : (src.getSlice i).size = 0
  · rw [if_pos hempty, hnil.2 hempty]
    simp [hempty, Piece.Held, Piece.value]
  rw [if_neg hempty]
  simp only [hempty, false_or]
  rcases lt_or_ge (offset + (src.getSlice i).size) 2147483648 with hsmall | hlarge
  · -- the range starts behind the row and ends with it
    have hwrap : wrap32 (offset + (src.getSlice i).size) = offset + (src.getSlice i).size :=
      wrap32_of_inInt ⟨by omega, by omega⟩
    have hend : (if wrap32 (offset + (src.getSlice i).size + len) < offset + (src.getSlice i).size ∨
          (src.getSlice i).size < toSizeT (wrap32 (offset + (src.getSlice i).size + len))
        then wrap32 (src.getSlice i).size
        else wrap32 (offset + (src.getSlice i).size + len)) = (src.getSlice i).size := by
      unfold wrap32 toSizeT
      omega
    refine iff_of_false ?_ (by omega)
    rw [hwrap, if_neg (by omega), hend]
    rintro ⟨⟨-, hle, -⟩, -⟩
    omega
  rcases lt_or_ge (offset + (src.getSlice i).size) 4294967296 with hmid | hover
  · -- the first position is negative
    have hwrap : wrap32 (offset + (src.getSlice i).size) < 0 := by unfold wrap32; omega
    have hdue : [] = ((src.row i).drop (offset - 1).toNat).take len.toNat ↔
        ((src.row i).length : ℤ) < offset ∨ len = 0 := by
      rw [eq_comm, ← List.length_eq_zero_iff, List.length_take, List.length_drop]
      omega
    rw [if_pos hwrap]
    simp only [Piece.Held, Piece.value, true_and, hdue]
    omega
  · -- the first position is inside the row, at or before the one meant
    have hwrap : wrap32 (offset + (src.getSlice i).size) =
        offset + (src.getSlice i).size - 4294967296 := by unfold wrap32; omega
    obtain ⟨g, hg⟩ : ∃ g : ℕ, (g : ℤ) = offset + (src.getSlice i).size - 4294967296 :=
      ⟨(offset + (src.getSlice i).size - 4294967296).toNat, by omega⟩
    have hnat : ((src.row i).length + offset - 4294967296).toNat = g := by omega
    have hend : (if wrap32 ((g : ℤ) + len) < g ∨
          (src.getSlice i).size < toSizeT (wrap32 ((g : ℤ) + len))
        then wrap32 (src.getSlice i).size else wrap32 ((g : ℤ) + len)) = g + len := by
      unfold wrap32 toSizeT
      omega
    have hfirst : ((src.getSlice i).data : ℤ) + g = ((src.getSlice i).data + g : ℕ) := by omega
    have hlast : ((src.getSlice i).data : ℤ) + (g + len) =
        ((src.getSlice i).data + (g + len.toNat) : ℕ) := by omega
    obtain ⟨p, hp, hwithin, hvalue⟩ :=
      yields_range hsrc hi hfirst hlast (Nat.le_add_right _ _) (by omega)
    rw [hwrap, ← hg, if_neg (by omega), hend, hnat]
    cases hp
    rw [hvalue, Nat.add_sub_cancel_left]
    have hheld := hsrc.held_of_within hi hwithin
    constructor
    · rintro ⟨-, heq⟩
      exact Or.inr ⟨by omega, heq⟩
    · rintro (hmid | ⟨-, heq⟩)
      · omega
      · exact ⟨hheld, heq⟩

/-- **`substr_new` agrees with `substr` from the left** exactly where an
`int` counts the rows and the column is not ASCII text and can be indexed,
or is ASCII text whose every row survives the kernel for negative
offsets. -/
theorem substrNew_eq_substr_iff (simd : Simd) (lookupTable : Bool)
    {rows : List (List (List Byte))} (ht : IsText src rows) (hoff : 1 ≤ offset) (hlen : 0 ≤ len)
    (hsum : offset + len < 2147483648) :
    (∃ d, substrNew simd false src dst offset len = some d ∧
        substr simd true true lookupTable src dst offset len = some d) ↔
      rows.length < 2147483648 ∧
      ((¬ (∀ b ∈ src.bytes, IsAscii b) ∧ ∀ cs ∈ rows, cs.flatten.length < 2147483648) ∨
        ((∀ b ∈ src.bytes, IsAscii b) ∧ ∀ cs ∈ rows, SurvivesAscii offset len cs.flatten)) := by
  have hshort : ∀ cs ∈ rows, (utf8Substr cs offset len).length < 4294967296 :=
    fun cs hcs => (length_utf8Substr_le cs offset len).trans_lt (ht.length_lt hcs)
  by_cases hcount : rows.length < 2147483648
  swap
  · -- `substr` has no result
    refine iff_of_false ?_ fun h => hcount h.1
    rintro ⟨d, -, hd⟩
    rw [substr_eq_forRows _ _ _ _ _ _ (by omega)] at hd
    exact hcount (ht.size ▸ (BinaryColumn.held_of_forRows hd).1)
  rw [substr_left ht hcount simd true lookupTable (by omega) hlen hsum, and_iff_right hcount]
  simp only [Option.some.injEq, exists_eq_right']
  unfold substrNew
  by_cases hascii : ∀ b ∈ src.bytes, IsAscii b
  · rw [if_pos ((validateAsciiFast_iff simd _).2 hascii), asciiSubstr,
      BinaryColumn.forRows_eq_appendAll_iff ht.offsets ht.size hshort, and_iff_right hcount]
    rw [or_iff_right fun hc => hc.1 hascii, and_iff_right hascii]
    simp only [Option.some.injEq, exists_eq_left']
    have hrow := fun (i : ℕ) (hi : i < rows.length) =>
      asciiSubstrRow_true_iff ht.offsets (ht.size ▸ hi) (ht.row hi) (ht.char hi)
        (fun b hb => hascii b (ht.mem_bytes (List.getElem_mem hi) hb)) (by omega) hlen hsum
    constructor
    · intro hp cs hcs
      obtain ⟨i, hi, rfl⟩ := List.mem_iff_getElem.1 hcs
      rw [← ht.row hi]
      exact (hrow i hi).1 (hp i hi)
    · intro hsurvives i hi
      refine (hrow i hi).2 ?_
      rw [ht.row hi]
      exact hsurvives _ (List.getElem_mem hi)
  · rw [if_neg fun hc => hascii ((validateAsciiFast_iff simd _).1 hc)]
    rw [or_iff_left fun hc => hascii hc.1, and_iff_right hascii]
    constructor
    · intro hresult
      by_contra hlong
      simp only [not_forall, not_lt, exists_prop] at hlong
      rw [if_pos (by omega)] at hresult
      exact absurd
        ((forRows_index_eq_none ht false false (offset - 1) len (Or.inr hlong)).symm.trans hresult)
        (by simp)
    · intro hrows
      exact forRows_index_eq ht hcount hrows false (Or.inl (by omega)) ⟨by omega, by omega⟩
        hlen (by omega)

theorem substrNew_eq_substr_iff_mixedRows :
    ∃ d, substrNew .avx2 false (.ofRows (mixedRows.map List.flatten)) .new 2 5 = some d ∧
      substr .avx2 true true false (.ofRows (mixedRows.map List.flatten)) .new 2 5 = some d :=
  (substrNew_eq_substr_iff .avx2 false
    ⟨BinaryColumn.offsetsOk_ofRows (by decide), show _ = mixedRows.map List.flatten by decide,
      by decide +kernel⟩
    (by decide) (by decide) (by decide)).2
    ⟨by decide, Or.inl ⟨fun hall => absurd (hall 0xE4 (by decide)) (by decide), by decide +kernel⟩⟩

/-- **On ASCII text the range descends**: from behind `abc` to its end. -/
theorem substrNew_ascii :
    substrNew .avx2 false (.ofRows [[0x61, 0x62, 0x63]]) .new 1 1 = none ∧
      substr .avx2 true true false (.ofRows [[0x61, 0x62, 0x63]]) .new 1 1 =
        some (BinaryColumn.new.appendAll [[0x61]]) := by
  decide

end StringFunctions

end CppEtudes
