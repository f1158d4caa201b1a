import CppEtudes.StringFunctions.Utf8

/-!
# `substr` on valid text

Every kernel computes the same substring of characters. Each is first
put as an equation over the row it reads (`utf8SubstrFromLeftRow_eq`,
`utf8SubstrFromRightRow_small`, `utf8SubstrFromRightRow_large`,
`asciiSubstrRow_eq`), then evaluated at a row of whole characters, where
the value is `utf8Substr`.
-/

namespace CppEtudes

namespace StringFunctions

open Machine

variable {src dst : BinaryColumn} {i : ℕ} {offset len : ℤ}

/-- **The substring of characters.** From the left, the characters at
positions `offset` to `offset + len - 1` that exist; from the right, the
first `len` of the last `o`, and nothing where the row is shorter. -/
def utf8Substr (cs : List (List Byte)) (offset len : ℤ) : List Byte :=
  if 0 < offset then ((cs.drop (offset - 1).toNat).take len.toNat).flatten
  else if cs.length < (-offset).toNat then []
  else ((cs.drop (cs.length - (-offset).toNat)).take (min len.toNat (-offset).toNat)).flatten

/-- `substr` runs one kernel over the rows. -/
theorem substr_eq_forRows (simd : Simd) (checkAscii useLength lookupTable : Bool)
    (src dst : BinaryColumn) {offset : ℤ} (hoff : offset ≠ 0) (len : ℤ) :
    substr simd checkAscii useLength lookupTable src dst offset len =
      src.forRows (substrBody simd checkAscii useLength lookupTable src offset len) dst := by
  unfold substr substrUtf8 substrBody
  rw [if_neg hoff, if_neg hoff]
  cases checkAscii <;> cases validateAsciiFast simd src.bytes <;> by_cases h : 0 < offset <;>
    simp only [h, if_true, if_false, Bool.and_true, Bool.and_false, Bool.and_self,
      Bool.false_eq_true] <;> rfl

/-! ## The kernels, over a row -/

theorem utf8SubstrFromLeftRow_eq (hsrc : src.OffsetsOk) (hi : i < src.size)
    (useLength lookupTable : Bool) (offset len : ℤ) :
    utf8SubstrFromLeftRow useLength lookupTable src.bytes offset len (src.getSlice i) =
      (Scan.advance (charSize lookupTable) (toSizeT offset) (src.row i)).bind fun a =>
        if useLength then
          if (src.row i).length ≤ a then some .empty
          else (Scan.advance (charSize lookupTable) (toSizeT len) ((src.row i).drop a)).map
            fun b => .range ((src.getSlice i).data + a : ℕ) ((src.getSlice i).data + (a + b) : ℕ)
        else some (.range ((src.getSlice i).data + a : ℕ) (src.getSlice i).stop) := by
  have hskip := skipLeadingUtf8_eq lookupTable src.bytes (hsrc.getSlice_stop_le hi)
  have hfirst := BinaryColumn.drop_take_stop (c := src) i 0
  rw [Nat.add_zero, List.drop_zero] at hfirst
  unfold utf8SubstrFromLeftRow
  rw [hskip, hfirst]
  cases Scan.advance (charSize lookupTable) (toSizeT offset) (src.row i) with
  | none => rfl
  | some a =>
    simp only [Option.map_some, Option.bind_eq_bind, Option.bind_some, Option.pure_def]
    cases useLength with
    | false => simp
    | true =>
      have hiff : (src.getSlice i).stop ≤ (src.getSlice i).data + a ↔ (src.row i).length ≤ a := by
        rw [hsrc.row_length hi, Slice.stop]
        omega
      simp only [if_true, hiff]
      split_ifs
      · rfl
      · rw [hskip, BinaryColumn.drop_take_stop]
        cases Scan.advance (charSize lookupTable) (toSizeT len) ((src.row i).drop a) with
        | none => rfl
        | some b => simp [Nat.add_assoc]

/-- From the right, on a short row: the starts of the characters, and the
end. -/
theorem utf8SubstrFromRightRow_small (hsrc : src.OffsetsOk) (hi : i < src.size)
    (hsmall : (src.row i).length ≤ smallIndexMax) (useLength lookupTable : Bool)
    {o : ℕ} (len : ℤ) (ho : (toSizeT offset : ℕ) = o) (hle : o ≤ (src.row i).length) :
    utf8SubstrFromRightRow useLength lookupTable src.bytes offset len (src.getSlice i) =
      let index := Scan.starts tableSize (src.row i).length 0 (src.row i)
      if index.length < o then some .empty
      else some (.range ((src.getSlice i).data + index.getD (index.length - o) 0 : ℕ)
        (if useLength && len < offset then
          ((src.getSlice i).data + index.getD (index.length - o + toSizeT len) 0 : ℕ)
        else ((src.getSlice i).stop : ℤ))) := by
  rw [hsrc.row_length hi] at hle
  have hsmall' : (src.getSlice i).size ≤ smallIndexMax := hsrc.row_length hi ▸ hsmall
  unfold utf8SubstrFromRightRow
  rw [ho, if_neg (by omega), if_pos hsmall', getUtf8SmallIndex_eq hsrc hi hsmall']
  split_ifs <;> simp_all

/-- From the right, on a long row: nothing where there are fewer first
bytes than asked for, and else a forward scan of the tail. -/
theorem utf8SubstrFromRightRow_large (hsrc : src.OffsetsOk) (hi : i < src.size)
    (hlarge : smallIndexMax < (src.row i).length) (useLength lookupTable : Bool)
    {o : ℕ} (len : ℤ) (ho : (toSizeT offset : ℕ) = o) (hpos : 0 < o)
    (hle : o ≤ (src.row i).length) :
    (utf8SubstrFromRightRow useLength lookupTable src.bytes offset len (src.getSlice i) =
        some .empty ∧ (src.row i).countP (fun b => !isContinuation b) < o) ∨
      ∃ k, k ≤ (src.row i).length ∧
        Scan.IsTail isContinuation o (src.row i) ((src.row i).drop k) ∧
        utf8SubstrFromRightRow useLength lookupTable src.bytes offset len (src.getSlice i) =
          if useLength = true ∧ len ≤ ((src.row i).drop k).length then
            (Scan.advance (charSize lookupTable) (toSizeT len) ((src.row i).drop k)).map fun b =>
              .range ((src.getSlice i).data + k : ℕ) ((src.getSlice i).data + (k + b) : ℕ)
          else some (.range ((src.getSlice i).data + k : ℕ) (src.getSlice i).stop) := by
  have hrow := hsrc.row_length hi
  unfold utf8SubstrFromRightRow
  rw [ho, if_neg (by omega), if_neg (by omega)]
  rcases skipTrailingUtf8_spec hsrc hi hpos with ⟨hbefore, hcount⟩ | ⟨k, hk, hkle, htail⟩
  · exact Or.inl ⟨by simp only [if_pos hbefore], hcount⟩
  · refine Or.inr ⟨k, by omega, htail, ?_⟩
    have hstop : ((src.getSlice i).stop : ℤ) - ((src.getSlice i).data + k : ℕ) =
        (((src.row i).drop k).length : ℤ) := by
      rw [List.length_drop, hrow, Slice.stop]
      omega
    simp only [hk, hstop, Int.toNat_natCast]
    rw [if_neg (by omega)]
    cases useLength with
    | false => simp
    | true =>
      simp only [if_true, true_and]
      rcases lt_or_ge (((src.row i).drop k).length : ℤ) len with hlt | hge
      · rw [if_pos hlt, if_neg (by omega)]
      · rw [if_neg (by omega), if_pos hge,
          skipLeadingUtf8_eq lookupTable src.bytes (hsrc.getSlice_stop_le hi),
          BinaryColumn.drop_take_stop]
        cases Scan.advance (charSize lookupTable) (toSizeT len) ((src.row i).drop k) with
        | none => rfl
        | some b => simp [Nat.add_assoc]

/-- An offset without the flag of a negative one. -/
theorem offset_nonneg {offset : ℤ} (hneg : false = true ↔ offset < 0) : 0 ≤ offset :=
  Int.not_lt.1 fun hlt => Bool.false_ne_true (hneg.2 hlt)

/-- On a row a signed 32-bit position can address, `ascii_substr` takes
the positions from `f` on, `len` of them as far as they go. The sum
`f + len` may overflow: the check that follows then cuts it at the end. -/
theorem asciiSubstrRow_eq {s : Slice} (hs : s.size < 2147483648) (negativeOffset : Bool)
    (hoff : InInt offset) (hneg : negativeOffset = true ↔ offset < 0) (hlen : 0 ≤ len)
    (hlen' : len < 2147483648) :
    asciiSubstrRow negativeOffset offset len s =
      let f := if negativeOffset then offset + s.size else offset
      if s.size = 0 ∨ f < 0 ∨ (s.size : ℤ) < f then .empty
      else .range (s.data + f) (s.data + min (f + len) s.size) := by
  obtain ⟨h₁, h₂⟩ := hoff
  have hsize : wrap32 (s.size : ℤ) = s.size := wrap32_of_inInt ⟨by omega, by omega⟩
  -- the end of the range, cut at the end of the row
  have hto : ∀ f : ℤ, 0 ≤ f → f ≤ s.size →
      (if wrap32 (f + len) < f ∨ s.size < toSizeT (wrap32 (f + len)) then wrap32 s.size
        else wrap32 (f + len)) = min (f + len) s.size := by
    intro f hf hfs
    rw [hsize]
    rcases lt_or_ge (f + len) 2147483648 with hsum | hsum
    · rw [wrap32_of_inInt ⟨by omega, hsum⟩]
      have := toSizeT_of_nonneg (x := f + len) (by omega) (by omega)
      split_ifs <;> omega
    · have hover : wrap32 (f + len) = f + len - 4294967296 := by unfold wrap32; omega
      rw [if_pos (Or.inl (by omega))]
      omega
  unfold asciiSubstrRow
  rcases Nat.eq_zero_or_pos s.size with h0 | hpos
  · simp [h0]
  rw [if_neg (by omega)]
  cases negativeOffset with
  | true =>
    have hlt : offset < 0 := hneg.1 rfl
    have hf : wrap32 (offset + s.size) = offset + s.size := wrap32_of_inInt ⟨by omega, by omega⟩
    simp only [if_true, hf]
    rcases lt_or_ge (offset + s.size) 0 with hout | hin
    · rw [if_pos hout, if_pos (Or.inr (Or.inl hout))]
    · rw [if_neg (by omega), hto _ hin (by omega), if_neg (by omega)]
  | false =>
    have hge := offset_nonneg hneg
    have hf := toSizeT_of_nonneg hge (by omega)
    simp only [Bool.false_eq_true, if_false]
    rcases lt_or_ge (s.size : ℤ) offset with hout | hin
    · rw [if_pos (by omega), if_pos (Or.inr (Or.inr hout))]
    · rw [if_neg (by omega), hto _ hge hin, if_neg (by omega)]

/-! ## Rows of whole characters -/

section Whole

variable {cs : List (List Byte)}

theorem drop_flatten_take (cs : List (List Byte)) (n : ℕ) :
    cs.flatten.drop (cs.take n).flatten.length = (cs.drop n).flatten := by
  conv_lhs => rw [← List.take_append_drop n cs, List.flatten_append]
  simp

theorem take_flatten_take (cs : List (List Byte)) (n : ℕ) :
    cs.flatten.take (cs.take n).flatten.length = (cs.take n).flatten := by
  conv_lhs => rw [← List.take_append_drop n cs, List.flatten_append]
  simp

/-- A range between the starts of two characters holds the characters
between them. -/
theorem take_drop_flatten (a d : ℕ) :
    (cs.flatten.drop (cs.take a).flatten.length).take
        ((cs.take (a + d)).flatten.length - (cs.take a).flatten.length) =
      ((cs.drop a).take d).flatten := by
  rw [drop_flatten_take, List.take_add, List.flatten_append, List.length_append,
    Nat.add_sub_cancel_left, take_flatten_take]

theorem length_flatten_take_le (cs : List (List Byte)) (n : ℕ) :
    (cs.take n).flatten.length ≤ cs.flatten.length := by
  have := congrArg List.length (take_flatten_take cs n)
  rw [List.length_take] at this
  omega

/-- The last `o` characters are no more than `o`. -/
theorem take_min_drop {o : ℕ} (ho : o ≤ cs.length) (n : ℕ) :
    (cs.drop (cs.length - o)).take (min n o) = (cs.drop (cs.length - o)).take n := by
  have hlen : (cs.drop (cs.length - o)).length ≤ o := by rw [List.length_drop]; omega
  rw [← List.take_take, List.take_of_length_le hlen]

/-- ASCII text has one byte a character. -/
theorem length_flatten_of_isAscii (h : ∀ c ∈ cs, IsUtf8Char c)
    (hascii : ∀ b ∈ cs.flatten, IsAscii b) : cs.flatten.length = cs.length := by
  induction cs with
  | nil => rfl
  | cons c cs ih =>
    obtain ⟨b, t, hc, hlead, -⟩ := (h c (by simp)).exists_lead
    have hb : b.toNat < 128 := hascii b (by simp [hc])
    have hone : c.length = 1 := by
      match hn : c.length, hlead with
      | 1, _ => rfl
      | 2, hl | 3, hl | 4, hl =>
        simp only [IsLeadByte] at hl
        omega
    rw [List.flatten_cons, List.length_append, hone, List.length_cons,
      ih (fun c hc => h c (by simp [hc])) fun b hb => hascii b (by simp_all)]
    omega

theorem length_flatten_take_of_isAscii (h : ∀ c ∈ cs, IsUtf8Char c)
    (hascii : ∀ b ∈ cs.flatten, IsAscii b) (n : ℕ) :
    (cs.take n).flatten.length = min n cs.length := by
  rw [length_flatten_of_isAscii (fun c hc => h c (List.mem_of_mem_take hc)) fun b hb => ?_,
    List.length_take]
  obtain ⟨c, hc, hbc⟩ := List.mem_flatten.1 hb
  exact hascii b (List.mem_flatten.2 ⟨c, List.mem_of_mem_take hc, hbc⟩)

/-! ## What each kernel takes of such a row -/

/-- The body has a piece, inside the row, with the given bytes. -/
def Yields (src : BinaryColumn) (i : ℕ) (r : Option Piece) (v : List Byte) : Prop :=
  ∃ p, r = some p ∧ p.Within (src.getSlice i) ∧ p.value src.bytes = v

theorem yields_empty (src : BinaryColumn) (i : ℕ) : Yields src i (some .empty) [] :=
  ⟨.empty, rfl, trivial, rfl⟩

/-- The tail with `o` first bytes is the last `o` characters. -/
theorem drop_of_isTail (hrow : src.row i = cs.flatten) (h : ∀ c ∈ cs, IsUtf8Char c) {o k : ℕ}
    (hpos : 0 < o) (htail : Scan.IsTail isContinuation o (src.row i) ((src.row i).drop k)) :
    o ≤ cs.length ∧ (src.row i).drop k = (cs.drop (cs.length - o)).flatten := by
  have hge : o ≤ cs.length := by
    by_contra hc
    refine Scan.not_isTail_of_count_lt ?_ htail
    rw [hrow, countP_flatten h]
    omega
  refine ⟨hge, htail.unique ?_⟩
  rw [hrow]
  exact isTail_flatten_drop h hpos hge

variable (hsrc : src.OffsetsOk) (hi : i < src.size)
include hsrc hi

/-- A range of positions of the row. -/
theorem yields_range {a b : ℕ} {first last : ℤ} (hfirst : first = ((src.getSlice i).data + a : ℕ))
    (hlast : last = ((src.getSlice i).data + b : ℕ)) (hab : a ≤ b) (hb : b ≤ (src.row i).length) :
    Yields src i (some (.range first last)) (((src.row i).drop a).take (b - a)) := by
  have hrow := hsrc.row_length hi
  subst hfirst hlast
  refine ⟨_, rfl, ⟨by omega, by omega, ?_⟩, BinaryColumn.value_range_row (by omega)⟩
  rw [Slice.stop]
  omega

/-- The rest of the row from a position on. -/
theorem yields_rest {a : ℕ} (ha : a ≤ (src.row i).length) :
    Yields src i (some (.range ((src.getSlice i).data + a : ℕ) (src.getSlice i).stop))
      ((src.row i).drop a) := by
  have hstop : ((src.getSlice i).stop : ℤ) = ((src.getSlice i).data + (src.row i).length : ℕ) := by
    rw [Slice.stop, hsrc.row_length hi]
  have hyield := yields_range hsrc hi rfl hstop ha le_rfl
  rwa [List.take_of_length_le (by rw [List.length_drop])] at hyield

variable (hrow : src.row i = cs.flatten) (h : ∀ c ∈ cs, IsUtf8Char c)
include hrow h

theorem yields_left (lookupTable : Bool) (offset len : ℤ) :
    Yields src i (utf8SubstrFromLeftRow true lookupTable src.bytes offset len (src.getSlice i))
      ((cs.drop (toSizeT offset)).take (toSizeT len)).flatten := by
  have hchar : ∀ c ∈ cs, Scan.IsChar (charSize lookupTable) c :=
    fun c hc => charSize_isChar lookupTable (h c hc)
  rw [utf8SubstrFromLeftRow_eq hsrc hi, hrow, Scan.advance_flatten _ cs hchar, Option.bind_some,
    if_pos rfl, drop_flatten_take,
    Scan.advance_flatten _ _ fun c hc => hchar c (List.mem_of_mem_drop hc), Option.map_some]
  split_ifs with hend
  · -- the row ends before the offset
    have hnil : (cs.drop (toSizeT offset)).flatten = [] := by
      rw [← drop_flatten_take, List.drop_eq_nil_of_le hend]
    rw [← take_flatten_take, hnil, List.take_nil]
    exact yields_empty src i
  · have hle : (cs.take (toSizeT offset)).flatten.length +
        ((cs.drop (toSizeT offset)).take (toSizeT len)).flatten.length ≤ (src.row i).length := by
      have hsplit := congrArg List.length (drop_flatten_take cs (toSizeT offset))
      have htake := length_flatten_take_le (cs.drop (toSizeT offset)) (toSizeT len)
      rw [List.length_drop] at hsplit
      rw [hrow]
      omega
    have hyield := yields_range hsrc hi rfl rfl (Nat.le_add_right _ _) hle
    rwa [hrow, Nat.add_sub_cancel_left, drop_flatten_take, take_flatten_take] at hyield

theorem yields_right_large (lookupTable : Bool) {o : ℕ}
    (hlarge : smallIndexMax < (src.row i).length) (hpos : 0 < o) (ho : toSizeT offset = o)
    (hle : o ≤ (src.row i).length) (hm : toSizeT len = len.toNat) :
    Yields src i (utf8SubstrFromRightRow true lookupTable src.bytes offset len (src.getSlice i))
      (if cs.length < o then []
      else ((cs.drop (cs.length - o)).take (min len.toNat o)).flatten) := by
  rcases utf8SubstrFromRightRow_large hsrc hi hlarge true lookupTable len ho hpos hle with
    ⟨hbody, hfew⟩ | ⟨k, hk, htail, hbody⟩
  · rw [hrow, countP_flatten h] at hfew
    rw [hbody, if_pos hfew]
    exact yields_empty src i
  obtain ⟨hge, hdrop⟩ := drop_of_isTail hrow h hpos htail
  have hlast : ∀ c ∈ cs.drop (cs.length - o), IsUtf8Char c :=
    fun c hc => h c (List.mem_of_mem_drop hc)
  rw [hbody, if_neg (by omega : ¬ cs.length < o), take_min_drop hge]
  split_ifs with hfit
  · have htake := take_flatten_take (cs.drop (cs.length - o)) len.toNat
    have hbound : k + ((cs.drop (cs.length - o)).take len.toNat).flatten.length ≤
        (src.row i).length := by
      have := length_flatten_take_le (cs.drop (cs.length - o)) len.toNat
      rw [← hdrop, List.length_drop] at this
      omega
    rw [hdrop, hm, Scan.advance_flatten _ _ fun c hc => charSize_isChar lookupTable (hlast c hc),
      Option.map_some]
    have hyield := yields_range hsrc hi rfl rfl (Nat.le_add_right k _) hbound
    rwa [Nat.add_sub_cancel_left, hdrop, htake] at hyield
  · -- more characters asked for than bytes are left
    have hall : (cs.drop (cs.length - o)).take len.toNat = cs.drop (cs.length - o) := by
      refine List.take_of_length_le ?_
      have hbytes := length_le_length_flatten hlast
      rw [← hdrop] at hbytes
      simp only [true_and, not_le] at hfit
      omega
    rw [hall, ← hdrop]
    exact yields_rest hsrc hi hk

theorem yields_right_small (lookupTable : Bool) {o : ℕ}
    (hsmall : (src.row i).length ≤ smallIndexMax) (hpos : 0 < o) (ho : toSizeT (o : ℤ) = o)
    (hle : o ≤ (src.row i).length) (hlen : 0 ≤ len) (hm : toSizeT len = len.toNat) :
    Yields src i (utf8SubstrFromRightRow true lookupTable src.bytes o len (src.getSlice i))
      (if cs.length < o then []
      else ((cs.drop (cs.length - o)).take (min len.toNat o)).flatten) := by
  rw [utf8SubstrFromRightRow_small hsrc hi hsmall true lookupTable len ho hle, hrow,
    Scan.starts_flatten _ 0 cs (fun c hc => tableSize_isChar (h c hc)) (length_le_length_flatten h)]
  simp only [List.length_map, List.length_range, Bool.true_and, decide_eq_true_eq]
  by_cases hshort : cs.length < o
  · rw [if_pos hshort, if_pos hshort]
    exact yields_empty src i
  rw [if_neg hshort, if_neg hshort, List.getD_eq_getElem _ _ (by simp; omega)]
  by_cases hlt : len < o
  · rw [if_pos hlt, List.getD_eq_getElem _ _ (by simp; omega)]
    simp only [List.getElem_map, List.getElem_range, Nat.zero_add]
    rw [Nat.min_eq_left (by omega), hm, ← take_drop_flatten, ← hrow]
    refine yields_range hsrc hi rfl rfl ?_ (by rw [hrow]; exact length_flatten_take_le _ _)
    rw [List.take_add, List.flatten_append, List.length_append]
    omega
  · rw [if_neg hlt]
    simp only [List.getElem_map, List.getElem_range, Nat.zero_add]
    have hall : (cs.drop (cs.length - o)).take len.toNat = cs.drop (cs.length - o) :=
      List.take_of_length_le (by rw [List.length_drop]; omega)
    rw [take_min_drop (by omega), hall, ← drop_flatten_take, ← hrow]
    exact yields_rest hsrc hi (by rw [hrow]; exact length_flatten_take_le _ _)

theorem yields_right (lookupTable : Bool) {o : ℕ} (hpos : 0 < o) (ho : o < 2147483648)
    (hlen : 0 ≤ len) (hlen' : len < 2147483648) :
    Yields src i (utf8SubstrFromRightRow true lookupTable src.bytes o len (src.getSlice i))
      (if cs.length < o then []
      else ((cs.drop (cs.length - o)).take (min len.toNat o)).flatten) := by
  have hcast : toSizeT (o : ℤ) = o := toSizeT_natCast (by omega)
  have hm : toSizeT len = len.toNat := by unfold toSizeT; omega
  rcases Nat.lt_or_ge (src.row i).length o with hshort | hle
  · -- more characters asked for than there are bytes
    have hsize := hsrc.row_length hi
    have hcount := length_le_length_flatten h
    rw [if_pos (by rw [hrow] at hshort; omega), utf8SubstrFromRightRow, hcast,
      if_pos (by omega)]
    exact yields_empty src i
  rcases Nat.lt_or_ge smallIndexMax (src.row i).length with hlarge | hsmall
  · exact yields_right_large hsrc hi hrow h lookupTable hlarge hpos hcast hle hm
  · exact yields_right_small hsrc hi hrow h lookupTable hsmall hpos hcast hle hlen hm

/-- On ASCII text a position is a character. -/
theorem yields_ascii (hascii : ∀ b ∈ cs.flatten, IsAscii b) {f : ℤ} (hlen : 0 ≤ len) :
    Yields src i
      (some (if (src.getSlice i).size = 0 ∨ f < 0 ∨ ((src.getSlice i).size : ℤ) < f then .empty
        else .range ((src.getSlice i).data + f)
          ((src.getSlice i).data + min (f + len) (src.getSlice i).size)))
      (if f < 0 then [] else ((cs.drop f.toNat).take len.toNat).flatten) := by
  have hsize := hsrc.row_length hi
  have hcount : (src.getSlice i).size = cs.length := by
    rw [← hsize, hrow, length_flatten_of_isAscii h hascii]
  rw [hcount]
  by_cases hneg : f < 0
  · rw [if_pos (Or.inr (Or.inl hneg)), if_pos hneg]
    exact yields_empty src i
  rw [if_neg hneg]
  by_cases hout : cs.length = 0 ∨ f < 0 ∨ (cs.length : ℤ) < f
  · rw [if_pos hout, List.drop_eq_nil_of_le (by omega), List.take_nil]
    exact yields_empty src i
  rw [if_neg hout]
  -- the end, counted from `f` on
  set d := min len.toNat (cs.length - f.toNat) with hd
  have htakes : (cs.drop f.toNat).take len.toNat = (cs.drop f.toNat).take d := by
    rw [hd, ← List.take_take, List.take_of_length_le (i := cs.length - f.toNat)
      (by rw [List.length_drop])]
  have hpre : ∀ n, n ≤ cs.length → (cs.take n).flatten.length = n := fun n hn => by
    rw [length_flatten_take_of_isAscii h hascii, Nat.min_eq_left hn]
  rw [htakes, ← take_drop_flatten, hpre _ (by omega), hpre _ (by omega), ← hrow]
  refine yields_range hsrc hi (by omega) ?_ (by omega) (by omega)
  omega

end Whole

/-! ## Columns of text -/

/-- **A column of valid text**: it keeps the offsets invariant and its
rows are the given lists of characters. -/
structure IsText (src : BinaryColumn) (rows : List (List (List Byte))) : Prop where
  offsets : src.OffsetsOk
  toVector : src.toVector = rows.map List.flatten
  valid : ∀ cs ∈ rows, ∀ c ∈ cs, IsUtf8Char c

namespace IsText

variable {rows : List (List (List Byte))}

theorem size (ht : IsText src rows) : src.size = rows.length :=
  BinaryColumn.size_eq_of_toVector ht.toVector

theorem row (ht : IsText src rows) (hi : i < rows.length) : src.row i = rows[i].flatten :=
  BinaryColumn.row_eq_of_toVector ht.toVector hi

theorem char (ht : IsText src rows) (hi : i < rows.length) : ∀ c ∈ rows[i], IsUtf8Char c :=
  ht.valid _ (List.getElem_mem hi)

theorem length_lt (ht : IsText src rows) {cs : List (List Byte)} (hcs : cs ∈ rows) :
    cs.flatten.length < 4294967296 := by
  obtain ⟨i, hi, rfl⟩ := List.mem_iff_getElem.1 hcs
  rw [← ht.row hi]
  exact ht.offsets.row_length_lt (ht.size ▸ hi)

/-- The bytes of a row are bytes of the column. -/
theorem mem_bytes (ht : IsText src rows) {cs : List (List Byte)} (hcs : cs ∈ rows) {b : Byte}
    (hb : b ∈ cs.flatten) : b ∈ src.bytes := by
  obtain ⟨i, hi, rfl⟩ := List.mem_iff_getElem.1 hcs
  rw [← ht.row hi] at hb
  exact BinaryColumn.mem_bytes_of_mem_row hb

/-- A loop over the rows appends what its bodies yield. -/
theorem forRows_eq (ht : IsText src rows) (hcount : rows.length < 2147483648)
    {body : Slice → Option Piece} {f : List (List Byte) → List Byte}
    (h : ∀ (i : ℕ) (hi : i < rows.length), Yields src i (body (src.getSlice i)) (f rows[i])) :
    src.forRows body dst = some (dst.appendAll (rows.map f)) := by
  refine BinaryColumn.forRows_eq_appendAll ht.size hcount fun i hi => ?_
  obtain ⟨p, hp, hwithin, hvalue⟩ := h i hi
  exact ⟨p, hp, ht.offsets.held_of_within (ht.size ▸ hi) hwithin, hvalue⟩

end IsText

/-! ## The substring -/

/-- In an ASCII column the characters of a row are ASCII bytes. -/
theorem isAscii_of_row {cs : List (List Byte)} (hrow : src.row i = cs.flatten)
    (hall : ∀ b ∈ src.bytes, IsAscii b) : ∀ b ∈ cs.flatten, IsAscii b := by
  intro b hb
  rw [← hrow] at hb
  exact hall b (BinaryColumn.mem_bytes_of_mem_row hb)

/-- What the body of the kernel in use yields for a row of valid
characters. -/
theorem yields_substrBody (simd : Simd) (checkAscii lookupTable : Bool) (hsrc : src.OffsetsOk)
    (hbytes : src.bytes.length < 2147483648) (hi : i < src.size) {cs : List (List Byte)}
    (hrow : src.row i = cs.flatten) (h : ∀ c ∈ cs, IsUtf8Char c) (hoff : offset ≠ 0)
    (hmin : -2147483648 < offset) (hmax : offset < 2147483648) (hlen : 0 ≤ len)
    (hlen' : len < 2147483648) :
    Yields src i (substrBody simd checkAscii true lookupTable src offset len (src.getSlice i))
      (utf8Substr cs offset len) := by
  have hsize : (src.getSlice i).size < 2147483648 := by
    have := hsrc.getSlice_stop_le hi
    rw [Slice.stop] at this
    omega
  have hm : toSizeT len = len.toNat := by unfold toSizeT; omega
  unfold substrBody utf8Substr
  by_cases hcheck : (checkAscii && validateAsciiFast simd src.bytes) = true
  · rw [if_pos hcheck]
    rw [Bool.and_eq_true, validateAsciiFast_iff] at hcheck
    have hascii := isAscii_of_row hrow hcheck.2
    by_cases hpos : 0 < offset
    · rw [if_pos hpos, if_pos hpos, asciiSubstrRow_eq hsize false ⟨by omega, by omega⟩
        (by simp; omega) hlen hlen']
      have hyield := yields_ascii hsrc hi hrow h hascii (f := offset - 1) hlen
      rwa [if_neg (by omega : ¬ offset - 1 < 0)] at hyield
    · rw [if_neg hpos, if_neg hpos, asciiSubstrRow_eq hsize true ⟨by omega, hmax⟩
        (by simp; omega) hlen hlen']
      have hcount : (src.getSlice i).size = cs.length := by
        rw [← hsrc.row_length hi, hrow, length_flatten_of_isAscii h hascii]
      have hyield := yields_ascii hsrc hi hrow h hascii (f := offset + (src.getSlice i).size) hlen
      rw [hcount] at hyield
      rw [hcount]
      have hiff : offset + (cs.length : ℤ) < 0 ↔ cs.length < (-offset).toNat := by omega
      have hnat : (offset + (cs.length : ℤ)).toNat = cs.length - (-offset).toNat := by omega
      simp only [if_true]
      by_cases hshort : cs.length < (-offset).toNat
      · rw [if_pos hshort]
        rwa [if_pos (hiff.2 hshort)] at hyield
      · rw [if_neg hshort, take_min_drop (by omega)]
        rwa [if_neg (mt hiff.1 hshort), hnat] at hyield
  · rw [if_neg hcheck]
    by_cases hpos : 0 < offset
    · rw [if_pos hpos, if_pos hpos]
      have hyield := yields_left hsrc hi hrow h lookupTable (offset - 1) len
      have hn : toSizeT (offset - 1) = (offset - 1).toNat := by unfold toSizeT; omega
      rwa [hn, hm] at hyield
    · rw [if_neg hpos, if_neg hpos]
      have hcast : wrap32 (-offset) = ((-offset).toNat : ℤ) := by
        rw [wrap32_of_inInt ⟨by omega, by omega⟩]
        omega
      rw [hcast]
      exact yields_right hsrc hi hrow h lookupTable (by omega) (by omega) hlen hlen'

/-- **`substr` appends the substring of characters of every row** of a
column whose rows an `int` counts: the ASCII path, the small index, the
backward scan and the two decoders agree on valid text. -/
theorem substr_eq_utf8Substr (simd : Simd) (checkAscii lookupTable : Bool)
    (hsrc : src.OffsetsOk) (hbytes : src.bytes.length < 2147483648)
    {rows : List (List (List Byte))} (hrows : src.toVector = rows.map List.flatten)
    (hcount : rows.length < 2147483648)
    (hvalid : ∀ cs ∈ rows, ∀ c ∈ cs, IsUtf8Char c) (hoff : offset ≠ 0)
    (hmin : -2147483648 < offset) (hmax : offset < 2147483648) (hlen : 0 ≤ len)
    (hlen' : len < 2147483648) :
    substr simd checkAscii true lookupTable src dst offset len =
      some (dst.appendAll (rows.map fun cs => utf8Substr cs offset len)) := by
  have ht : IsText src rows := ⟨hsrc, hrows, hvalid⟩
  rw [substr_eq_forRows _ _ _ _ _ _ hoff]
  exact ht.forRows_eq hcount fun i hi => yields_substrBody simd checkAscii lookupTable hsrc hbytes
    (ht.size ▸ hi) (ht.row hi) (ht.char hi) hoff hmin hmax hlen hlen'

/-- A row of two characters and one of twelve, past the small index. -/
def mixedRows : List (List (List Byte)) :=
  [[[0x61], [0xE4, 0xBD, 0xA0]], List.replicate 10 [0xE5, 0xA5, 0xBD] ++ [[0xC3, 0xA9], [0x7A]]]

theorem substr_eq_utf8Substr_mixedRows :
    substr .avx2 true true false (.ofRows (mixedRows.map List.flatten)) .new (-2) 1 =
      some (BinaryColumn.new.appendAll [[0x61], [0xC3, 0xA9]]) :=
  substr_eq_utf8Substr .avx2 true false (BinaryColumn.offsetsOk_ofRows (by decide)) (by decide)
    (show _ = mixedRows.map List.flatten by decide) (by decide) (by decide +kernel) (by decide)
    (by decide) (by decide) (by decide) (by decide)

/-- **Valid text in more rows than an `int` counts**: not a byte of it,
and `substr` has no result. -/
theorem substr_emptyRows :
    IsText .emptyRows (List.replicate 2147483648 []) ∧ BinaryColumn.emptyRows.bytes = [] ∧
      substr .avx2 true true false .emptyRows .new 1 1 = none := by
  refine ⟨⟨BinaryColumn.offsetsOk_emptyRows, ?_, ?_⟩, ?_, ?_⟩
  · rw [BinaryColumn.toVector_emptyRows, List.map_replicate, List.flatten_nil]
  · intro cs hcs c hc
    obtain rfl := List.eq_of_mem_replicate hcs
    cases hc
  · rw [BinaryColumn.emptyRows, BinaryColumn.bytes_ofRows, List.flatten_replicate_nil]
  · rw [substr_eq_forRows _ _ _ _ _ _ (by decide)]
    exact BinaryColumn.forSlices_emptyRows _ _

end StringFunctions

end CppEtudes
