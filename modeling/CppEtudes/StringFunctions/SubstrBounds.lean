import CppEtudes.StringFunctions.Substr

/-!
# `substr` on arbitrary bytes

`substr` does not validate its input, and the decoders step by what a
first byte announces. `RowFits` says which rows keep the copied range
where it belongs: no character that the copy takes announces more bytes
than the row has left, `room` aside. With no room this is that the value
is a part of its own row (`AppendsOwnParts`); with the room the buffer
has behind the row it is that the copy is defined at all, and then
`substr` appends one row for each row of the source
(`AppendsOneRowEach`).
-/

namespace CppEtudes

namespace StringFunctions

open Machine

variable {src dst : BinaryColumn} {i room : ℕ} {offset len : ℤ}

/-! ## How far a piece reaches -/

/-- The piece starts in the slice and ends at most `room` bytes behind
it. -/
def Piece.Reaches (s : Slice) (room : ℕ) : Piece → Prop
  | .empty => True
  | .range first last => (s.data : ℤ) ≤ first ∧ first ≤ last ∧ last ≤ (s.stop + room : ℕ)

theorem Piece.reaches_zero_iff {s : Slice} {p : Piece} : p.Reaches s 0 ↔ p.Within s := by
  cases p <;> rfl

/-- The piece starts at or behind the start of the slice. -/
def Piece.StartsIn (s : Slice) : Piece → Prop
  | .empty => True
  | .range first _ => (s.data : ℤ) ≤ first

/-- Such a piece is held exactly where it reaches no further than the
buffer. -/
theorem Piece.StartsIn.held_iff {s : Slice} {p : Piece} {bytes : List Byte}
    (h : p.StartsIn s) (hs : s.stop ≤ bytes.length) :
    p.Held bytes ↔ p.Reaches s (bytes.length - s.stop) := by
  cases p with
  | empty => exact Iff.rfl
  | range first last =>
    simp only [StartsIn, Held, Reaches] at h ⊢
    rw [Nat.add_sub_cancel' hs]
    constructor
    · rintro ⟨-, h₂, h₃⟩
      exact ⟨h, h₂, h₃⟩
    · rintro ⟨-, h₂, h₃⟩
      exact ⟨by omega, h₂, h₃⟩

/-! ## Which rows fit -/

/-- **No selected character of the row announces more than `room` bytes
behind it.** In ASCII text the positions are in doubt instead: those of
a row of `2^31` bytes or more, where their sum with `len` overflows. From
the left, a character that overhangs among those skipped leaves nothing
to copy, unless the rest of the row is asked for; from the right, the
index of a short row never leaves it, and a long row is scanned forward
from its `o`-th first byte from the end. -/
def RowFits (room : ℕ) (ascii useLength lookupTable : Bool) (offset len : ℤ)
    (row : List Byte) : Prop :=
  if ascii then
    row.length < 2147483648 ∨
      if 0 < offset then offset - 1 + len < 2147483648
      else 2147483648 ≤ row.length + offset ∨ row.length + offset + len < 2147483648
  else if 0 < offset then
    if useLength then
      Scan.Fits (charSize lookupTable) room ((offset - 1).toNat + len.toNat) row ∨
        (Scan.Announced (charSize lookupTable) (offset - 1).toNat row ∧
          ¬ Scan.Fits (charSize lookupTable) 0 (offset - 1).toNat row)
    else Scan.Fits (charSize lookupTable) 0 (offset - 1).toNat row
  else
    offset = -2147483648 ∨ row.length ≤ smallIndexMax ∨ useLength = false ∨
      ∀ t, Scan.IsTail isContinuation (-offset).toNat row t →
        (t.length : ℤ) < len ∨ Scan.Fits (charSize lookupTable) room len.toNat t

/-! ## The kernels -/

/-- The piece that two forward scans cut out of a row, the second from
where the first ended. -/
theorem cut_reaches_iff {s : Slice} {row : List Byte} (hsize : row.length = s.size)
    (size : Byte → Option ℕ) (useLength : Bool) (n m : ℕ) :
    (∃ p, ((Scan.advance size n row).bind fun a =>
        if useLength then
          if row.length ≤ a then some Piece.empty
          else (Scan.advance size m (row.drop a)).map
            fun b => Piece.range (s.data + a : ℕ) (s.data + (a + b) : ℕ)
        else some (Piece.range (s.data + a : ℕ) s.stop)) = some p ∧ p.Reaches s room) ↔
      if useLength then
        Scan.Fits size room (n + m) row ∨ (Scan.Announced size n row ∧ ¬ Scan.Fits size 0 n row)
      else Scan.Fits size 0 n row := by
  simp only [Scan.fits_iff_advance, Scan.advance_add, ← Scan.advance_eq_some_iff_announced]
  cases Scan.advance size n row with
  | none => simp
  | some a =>
    cases useLength with
    | false =>
      simp only [Option.bind_some, Bool.false_eq_true, if_false, Option.some.injEq,
        exists_eq_left', Piece.Reaches, Slice.stop]
      omega
    | true =>
      simp only [Option.bind_some, if_true, Option.some.injEq, exists_eq_left', exists_eq',
        true_and, Nat.add_zero, not_le]
      rcases Nat.lt_or_ge a row.length with hlt | hge
      · rw [if_neg (by omega)]
        cases Scan.advance size m (row.drop a) with
        | none => simp; omega
        | some b =>
          simp only [Option.map_some, Option.some.injEq, exists_eq_left', Piece.Reaches, Slice.stop]
          omega
      · rw [if_pos hge, List.drop_eq_nil_of_le hge]
        simp only [Option.some.injEq, exists_eq_left', Piece.Reaches, Scan.advance_nil,
          Option.map_some, true_iff]
        omega

section Kernels

variable (hsrc : src.OffsetsOk) (hi : i < src.size)
include hsrc hi

theorem fromLeft_reaches_iff (useLength lookupTable : Bool) {n m : ℕ} (hn : toSizeT offset = n)
    (hm : toSizeT len = m) :
    (∃ p, utf8SubstrFromLeftRow useLength lookupTable src.bytes offset len (src.getSlice i) =
        some p ∧ p.Reaches (src.getSlice i) room) ↔
      if useLength then
        Scan.Fits (charSize lookupTable) room (n + m) (src.row i) ∨
          (Scan.Announced (charSize lookupTable) n (src.row i) ∧
            ¬ Scan.Fits (charSize lookupTable) 0 n (src.row i))
      else Scan.Fits (charSize lookupTable) 0 n (src.row i) := by
  rw [utf8SubstrFromLeftRow_eq hsrc hi, hn, hm]
  exact cut_reaches_iff (hsrc.row_length hi) _ useLength n m

theorem fromLeft_startsIn (useLength lookupTable : Bool) {p : Piece}
    (h : utf8SubstrFromLeftRow useLength lookupTable src.bytes offset len (src.getSlice i) =
      some p) : p.StartsIn (src.getSlice i) := by
  rw [utf8SubstrFromLeftRow_eq hsrc hi, Option.bind_eq_some_iff] at h
  obtain ⟨a, -, h⟩ := h
  split_ifs at h
  · cases h
    trivial
  · obtain ⟨b, -, rfl⟩ := Option.map_eq_some_iff.1 h
    simp only [Piece.StartsIn]
    omega
  · cases h
    simp only [Piece.StartsIn]
    omega

/-- The index of a short row stays inside it. -/
theorem fromRight_small_within (hsmall : (src.row i).length ≤ smallIndexMax)
    (useLength lookupTable : Bool) {o : ℕ} (hpos : 0 < o) (ho : toSizeT (o : ℤ) = o)
    (hle : o ≤ (src.row i).length) (hm : toSizeT len = len.toNat) :
    ∃ p, utf8SubstrFromRightRow useLength lookupTable src.bytes o len (src.getSlice i) = some p ∧
      p.Within (src.getSlice i) := by
  have hsize := hsrc.row_length hi
  obtain ⟨hsorted, hmem⟩ := Scan.starts_sorted tableSize_pos (src.row i).length 0 (src.row i)
  rw [utf8SubstrFromRightRow_small hsrc hi hsmall useLength lookupTable len ho hle]
  set index := Scan.starts tableSize (src.row i).length 0 (src.row i)
  by_cases hfew : index.length < o
  · exact ⟨.empty, by simp only [if_pos hfew], trivial⟩
  refine ⟨_, by simp only [if_neg hfew]; rfl, ?_⟩
  have hfrom : index.getD (index.length - o) 0 < (src.row i).length := by
    rw [List.getD_eq_getElem _ _ (by omega)]
    have := (hmem _ (List.getElem_mem (by omega : index.length - o < index.length))).2
    omega
  by_cases hcut : (useLength && decide (len < o)) = true
  · have hlt : len < o := by
      rw [Bool.and_eq_true, decide_eq_true_eq] at hcut
      exact hcut.2
    have hto : index.length - o + len.toNat < index.length := by omega
    have hto' : index.getD (index.length - o + len.toNat) 0 < (src.row i).length := by
      rw [List.getD_eq_getElem _ _ hto]
      have := (hmem _ (List.getElem_mem hto)).2
      omega
    have hmono : index.getD (index.length - o) 0 ≤ index.getD (index.length - o + len.toNat) 0 := by
      rw [List.getD_eq_getElem _ _ (by omega), List.getD_eq_getElem _ _ hto]
      rcases Nat.eq_zero_or_pos len.toNat with h0 | hp
      · simp only [h0, Nat.add_zero, le_refl]
      · exact (List.pairwise_iff_getElem.1 hsorted _ _ (by omega) hto (by omega)).le
    simp only [hcut, if_true, Piece.Within, Slice.stop, hm]
    omega
  · simp only [hcut, if_false, Piece.Within, Slice.stop, Bool.false_eq_true]
    omega

theorem fromRight_reaches_iff (useLength lookupTable : Bool) {o : ℕ} (hpos : 0 < o)
    (ho : o < 2147483648) (hlen : 0 ≤ len) (hlen' : len < 2147483648) :
    (∃ p, utf8SubstrFromRightRow useLength lookupTable src.bytes o len (src.getSlice i) =
        some p ∧ p.Reaches (src.getSlice i) room) ↔
      (src.row i).length ≤ smallIndexMax ∨ useLength = false ∨
        ∀ t, Scan.IsTail isContinuation o (src.row i) t →
          (t.length : ℤ) < len ∨ Scan.Fits (charSize lookupTable) room len.toNat t := by
  have hsize := hsrc.row_length hi
  have hcast : toSizeT (o : ℤ) = o := toSizeT_natCast (by omega)
  have hm : toSizeT len = len.toNat := by unfold toSizeT; omega
  rcases Nat.lt_or_ge (src.row i).length o with hshort | hle
  · -- more characters asked for than there are bytes
    rw [utf8SubstrFromRightRow, hcast, if_pos (by omega)]
    refine iff_of_true ⟨.empty, rfl, trivial⟩ (Or.inr (Or.inr fun t ht => ?_))
    have hcount : (src.row i).countP (fun b => !isContinuation b) ≤ (src.row i).length :=
      List.countP_le_length
    exact absurd ht (Scan.not_isTail_of_count_lt (by omega))
  rcases Nat.lt_or_ge smallIndexMax (src.row i).length with hlarge | hsmall
  · rcases utf8SubstrFromRightRow_large hsrc hi hlarge useLength lookupTable len hcast hpos hle with
      ⟨hbody, hfew⟩ | ⟨k, hk, htail, hbody⟩
    · exact iff_of_true ⟨.empty, hbody, trivial⟩
        (Or.inr (Or.inr fun t ht => absurd ht (Scan.not_isTail_of_count_lt hfew)))
    · have hall : (∀ t, Scan.IsTail isContinuation o (src.row i) t →
            (t.length : ℤ) < len ∨ Scan.Fits (charSize lookupTable) room len.toNat t) ↔
          (((src.row i).drop k).length : ℤ) < len ∨
            Scan.Fits (charSize lookupTable) room len.toNat ((src.row i).drop k) :=
        ⟨fun h => h _ htail, fun h t ht => ht.unique htail ▸ h⟩
      have hrest := List.length_drop (i := k) (l := src.row i)
      rw [hbody, hall, hm, Scan.fits_iff_advance]
      cases useLength with
      | false =>
        simp only [Bool.false_eq_true, false_and, if_false, Option.some.injEq, exists_eq_left',
          Piece.Reaches, Slice.stop, true_or, or_true, iff_true]
        omega
      | true =>
        simp only [true_and, Bool.true_eq_false, false_or, not_le.2 hlarge]
        rcases lt_or_ge (((src.row i).drop k).length : ℤ) len with hlt | hge
        · rw [if_neg (by omega)]
          simp only [Option.some.injEq, exists_eq_left', Piece.Reaches, Slice.stop, hlt, true_or,
            iff_true]
          omega
        · rw [if_pos hge]
          cases Scan.advance (charSize lookupTable) len.toNat ((src.row i).drop k) with
          | none => simp; omega
          | some b =>
            simp only [Option.map_some, Option.some.injEq, exists_eq_left', Piece.Reaches,
              Slice.stop]
            omega
  · obtain ⟨p, hp, hwithin⟩ := fromRight_small_within hsrc hi hsmall useLength lookupTable hpos
      hcast hle hm
    refine iff_of_true ⟨p, hp, ?_⟩ (Or.inl hsmall)
    cases p with
    | empty => trivial
    | range first last =>
      obtain ⟨h₁, h₂, h₃⟩ := hwithin
      exact ⟨h₁, h₂, by push_cast; omega⟩

theorem fromRight_startsIn (useLength lookupTable : Bool) {o : ℕ} (hpos : 0 < o)
    (ho : o < 2147483648) (hlen : 0 ≤ len) (hlen' : len < 2147483648) {p : Piece}
    (h : utf8SubstrFromRightRow useLength lookupTable src.bytes o len (src.getSlice i) = some p) :
    p.StartsIn (src.getSlice i) := by
  have hsize := hsrc.row_length hi
  have hcast : toSizeT (o : ℤ) = o := toSizeT_natCast (by omega)
  have hm : toSizeT len = len.toNat := by unfold toSizeT; omega
  rcases Nat.lt_or_ge (src.row i).length o with hshort | hle
  · rw [utf8SubstrFromRightRow, hcast, if_pos (by omega), Option.some.injEq] at h
    subst h
    trivial
  rcases Nat.lt_or_ge smallIndexMax (src.row i).length with hlarge | hsmall
  · rcases utf8SubstrFromRightRow_large hsrc hi hlarge useLength lookupTable len hcast hpos hle with
      ⟨hbody, -⟩ | ⟨k, -, -, hbody⟩
    · rw [hbody, Option.some.injEq] at h
      subst h
      trivial
    · rw [hbody] at h
      split_ifs at h
      · obtain ⟨b, -, rfl⟩ := Option.map_eq_some_iff.1 h
        simp only [Piece.StartsIn]
        omega
      · rw [Option.some.injEq] at h
        subst h
        simp only [Piece.StartsIn]
        omega
  · obtain ⟨q, hq, hwithin⟩ := fromRight_small_within hsrc hi hsmall useLength lookupTable hpos
      hcast hle hm
    rw [hq, Option.some.injEq] at h
    subst h
    cases q with
    | empty => trivial
    | range first last => exact hwithin.1

end Kernels

/-- A position of a row of `2^31` bytes or more: the sum with `len` is
exact where it does not overflow, and else the end of the row is taken
for it, which as a signed number lies before the row. -/
theorem ascii_reaches_iff {s : Slice} (hs : s.size < 4294967296) (negativeOffset : Bool)
    (hoff : InInt offset) (hneg : negativeOffset = true ↔ offset < 0) (hlen : 0 ≤ len)
    (hlen' : len < 2147483648) :
    (asciiSubstrRow negativeOffset offset len s).Reaches s room ↔
      s.size < 2147483648 ∨
        if negativeOffset then
          2147483648 ≤ s.size + offset ∨ s.size + offset + len < 2147483648
        else offset + len < 2147483648 := by
  rcases Nat.lt_or_ge s.size 2147483648 with hsmall | hlarge
  · refine iff_of_true ?_ (Or.inl hsmall)
    rw [asciiSubstrRow_eq hsmall negativeOffset hoff hneg hlen hlen']
    simp only
    split_ifs
    all_goals first | trivial | (simp only [Piece.Reaches, Slice.stop]; omega)
  obtain ⟨h₁, h₂⟩ := hoff
  have hend : wrap32 (s.size : ℤ) = s.size - 4294967296 := by unfold wrap32; omega
  -- a copy from a position a signed 32-bit number holds
  have hcopy : ∀ f : ℤ, 0 ≤ f → f < 2147483648 →
      ((Piece.range (s.data + f) (s.data + if wrap32 (f + len) < f ∨
          s.size < toSizeT (wrap32 (f + len)) then wrap32 s.size
        else wrap32 (f + len))).Reaches s room ↔ f + len < 2147483648) := by
    intro f hf hf'
    rw [hend]
    rcases lt_or_ge (f + len) 2147483648 with hsum | hsum
    · have := toSizeT_of_nonneg (x := f + len) (by omega) (by omega)
      rw [wrap32_of_inInt ⟨by omega, hsum⟩, if_neg (by omega)]
      simp only [Piece.Reaches, Slice.stop]
      omega
    · have hover : wrap32 (f + len) = f + len - 4294967296 := by unfold wrap32; omega
      rw [hover, if_pos (Or.inl (by omega))]
      simp only [Piece.Reaches]
      omega
  unfold asciiSubstrRow
  rw [if_neg (by omega)]
  cases negativeOffset with
  | true =>
    have hlt : offset < 0 := hneg.1 rfl
    simp only [if_true]
    rcases lt_or_ge ((s.size : ℤ) + offset) 2147483648 with hin | hout
    · rw [Int.add_comm, wrap32_of_inInt ⟨by omega, hin⟩, if_neg (by omega), hcopy _ (by omega) hin]
      omega
    · have hwrap : wrap32 (offset + s.size) = offset + s.size - 4294967296 := by
        unfold wrap32; omega
      rw [hwrap, if_pos (by omega)]
      exact iff_of_true trivial (Or.inr (Or.inl hout))
  | false =>
    have hge := offset_nonneg hneg
    have hf := toSizeT_of_nonneg hge (by omega)
    simp only [Bool.false_eq_true, if_false]
    rw [if_neg (by omega), hcopy _ hge h₂]
    omega

theorem ascii_startsIn {s : Slice} (negativeOffset : Bool)
    (hneg : negativeOffset = true ↔ offset < 0) :
    (asciiSubstrRow negativeOffset offset len s).StartsIn s := by
  unfold asciiSubstrRow
  cases negativeOffset with
  | true =>
    simp only [if_true]
    split_ifs <;> simp only [Piece.StartsIn] <;> omega
  | false =>
    have hge := offset_nonneg hneg
    simp only [Bool.false_eq_true, if_false]
    split_ifs <;> simp only [Piece.StartsIn] <;> omega

/-! ## The dispatcher -/

section Dispatch

variable (simd : Simd) (checkAscii useLength lookupTable : Bool)

/-- **A body has a piece that reaches at most `room` bytes behind its row
exactly where the row fits.** -/
theorem substrBody_reaches_iff (room : ℕ) (hsrc : src.OffsetsOk) (hi : i < src.size)
    (hoff : offset ≠ 0) (hint : InInt offset) (hlen : 0 ≤ len) (hlen' : len < 2147483648) :
    (∃ p, substrBody simd checkAscii useLength lookupTable src offset len (src.getSlice i) =
        some p ∧ p.Reaches (src.getSlice i) room) ↔
      RowFits room (checkAscii && validateAsciiFast simd src.bytes) useLength lookupTable offset len
        (src.row i) := by
  have hsize := hsrc.row_length hi
  have hbound := hsrc.row_length_lt hi
  have hm : toSizeT len = len.toNat := by unfold toSizeT; omega
  obtain ⟨h₁, h₂⟩ := hint
  unfold substrBody RowFits
  rcases lt_or_gt_of_ne hoff with hneg | hpos
  · have hnot : ¬ 0 < offset := by omega
    simp only [hnot, if_false]
    split_ifs
    · simp only [Option.some.injEq, exists_eq_left']
      rw [ascii_reaches_iff (by omega) true ⟨h₁, h₂⟩ (by simp [hneg]) hlen hlen', hsize, if_pos rfl]
    · rcases eq_or_ne offset (-2147483648) with rfl | hne
      · -- the negation overflows, and no row is that long
        refine iff_of_true ⟨.empty, ?_, trivial⟩ (Or.inl rfl)
        have hhuge : (src.getSlice i).size < toSizeT (wrap32 (-(-2147483648))) := by
          unfold wrap32 toSizeT
          omega
        rw [utf8SubstrFromRightRow, if_pos hhuge]
      · have ho : wrap32 (-offset) = ((-offset).toNat : ℤ) := by
          rw [wrap32_of_inInt ⟨by omega, by omega⟩]
          omega
        rw [ho, fromRight_reaches_iff hsrc hi useLength lookupTable (by omega) (by omega) hlen hlen']
        simp only [hne, false_or]
  · simp only [hpos, if_true]
    split_ifs with hascii huse
    · simp only [Option.some.injEq, exists_eq_left']
      rw [ascii_reaches_iff (by omega) false ⟨by omega, by omega⟩ (by simp; omega) hlen hlen',
        hsize, if_neg (by simp)]
    all_goals
      rw [fromLeft_reaches_iff hsrc hi useLength lookupTable
        (by unfold toSizeT; omega : toSizeT (offset - 1) = (offset - 1).toNat) hm]
      simp only [huse, if_true, if_false, Bool.false_eq_true]

theorem substrBody_startsIn (hsrc : src.OffsetsOk) (hi : i < src.size) (hoff : offset ≠ 0)
    (hint : InInt offset) (hlen : 0 ≤ len) (hlen' : len < 2147483648) {p : Piece}
    (h : substrBody simd checkAscii useLength lookupTable src offset len (src.getSlice i) =
      some p) : p.StartsIn (src.getSlice i) := by
  have hsize := hsrc.row_length hi
  have hbound := hsrc.row_length_lt hi
  obtain ⟨h₁, h₂⟩ := hint
  unfold substrBody at h
  split_ifs at h with hascii hpos hpos
  · cases h
    exact ascii_startsIn false (by simp; omega)
  · cases h
    exact ascii_startsIn true (by simp; omega)
  · exact fromLeft_startsIn hsrc hi useLength lookupTable h
  · rcases eq_or_ne offset (-2147483648) with rfl | hne
    · have hhuge : (src.getSlice i).size < toSizeT (wrap32 (-(-2147483648))) := by
        unfold wrap32 toSizeT
        omega
      rw [utf8SubstrFromRightRow, if_pos hhuge, Option.some.injEq] at h
      subst h
      trivial
    · have ho : wrap32 (-offset) = ((-offset).toNat : ℤ) := by
        rw [wrap32_of_inInt ⟨by omega, by omega⟩]
        omega
      rw [ho] at h
      exact fromRight_startsIn hsrc hi useLength lookupTable (by omega) (by omega) hlen hlen' h

/-- **And a piece that the buffer holds exactly where it fits the buffer.** -/
theorem substrBody_held_iff (hsrc : src.OffsetsOk) (hi : i < src.size) (hoff : offset ≠ 0)
    (hint : InInt offset) (hlen : 0 ≤ len) (hlen' : len < 2147483648) :
    (∃ p, substrBody simd checkAscii useLength lookupTable src offset len (src.getSlice i) =
        some p ∧ p.Held src.bytes) ↔
      RowFits (src.bytes.length - (src.getSlice i).stop)
        (checkAscii && validateAsciiFast simd src.bytes) useLength lookupTable offset len
        (src.row i) := by
  rw [← substrBody_reaches_iff simd checkAscii useLength lookupTable _ hsrc hi hoff hint hlen hlen']
  refine exists_congr fun p => and_congr_right fun hp => ?_
  exact (substrBody_startsIn simd checkAscii useLength lookupTable hsrc hi hoff hint hlen hlen'
    hp).held_iff (hsrc.getSlice_stop_le hi)

/-! ## Parts of the own row -/

/-- **What `substr` appends for a row is a contiguous part of that
row**: the copied range lies between the row's own ends. -/
def AppendsOwnParts (simd : Simd) (checkAscii useLength lookupTable : Bool)
    (src dst : BinaryColumn) (offset len : ℤ) : Prop :=
  ∃ p : ℕ → Piece,
    substr simd checkAscii useLength lookupTable src dst offset len =
      some (dst.appendAll ((List.range src.size).map fun i => (p i).value src.bytes)) ∧
    ∀ i, i < src.size →
      substrBody simd checkAscii useLength lookupTable src offset len (src.getSlice i) =
        some (p i) ∧ (p i).Within (src.getSlice i) ∧ (p i).value src.bytes <:+: src.row i

theorem appendsOwnParts_iff (hsrc : src.OffsetsOk) (hoff : offset ≠ 0)
    (hmin : -2147483648 < offset) (hmax : offset < 2147483648) (hlen : 0 ≤ len)
    (hlen' : len < 2147483648) :
    AppendsOwnParts simd checkAscii useLength lookupTable src dst offset len ↔
      src.size < 2147483648 ∧ ∀ i, i < src.size →
        RowFits 0 (checkAscii && validateAsciiFast simd src.bytes) useLength lookupTable offset len
          (src.row i) := by
  have hrow : ∀ i, i < src.size → _ := fun i hi =>
    substrBody_reaches_iff simd checkAscii useLength lookupTable 0 hsrc hi hoff ⟨hmin.le, hmax⟩
      hlen hlen'
  constructor
  · rintro ⟨p, hrun, hp⟩
    rw [substr_eq_forRows _ _ _ _ _ _ hoff] at hrun
    refine ⟨(BinaryColumn.held_of_forRows hrun).1, fun i hi => ?_⟩
    exact (hrow i hi).1 ⟨p i, (hp i hi).1, Piece.reaches_zero_iff.2 (hp i hi).2.1⟩
  · rintro ⟨hcount, h⟩
    have hpiece : ∀ i, i < src.size → ∃ p,
        substrBody simd checkAscii useLength lookupTable src offset len (src.getSlice i) =
          some p ∧ p.Within (src.getSlice i) := by
      intro i hi
      obtain ⟨p, hp, hreach⟩ := (hrow i hi).2 (h i hi)
      exact ⟨p, hp, Piece.reaches_zero_iff.1 hreach⟩
    obtain ⟨p, hp⟩ := BinaryColumn.exists_pieces hpiece
    refine ⟨p, ?_, fun i hi => ⟨(hp i hi).1, (hp i hi).2,
      BinaryColumn.value_infix_of_within (hp i hi).2⟩⟩
    rw [substr_eq_forRows _ _ _ _ _ _ hoff]
    exact BinaryColumn.forRows_eq_some hcount fun i hi =>
      ⟨(hp i hi).1, hsrc.held_of_within hi (hp i hi).2⟩

/-- A truncated character behind the copied one does no harm. -/
theorem appendsOwnParts_iff_unselected :
    AppendsOwnParts .sse2 false true false (.ofRows [[0x61, 0xE4], [0xC3, 0xA9]]) .new 1 1 := by
  refine (appendsOwnParts_iff _ _ _ _ (BinaryColumn.offsetsOk_ofRows (by decide)) (by decide)
    (by decide) (by decide) (by decide) (by decide)).2 ⟨by decide, fun i hi => Or.inl ?_⟩
  match i, (show i < 2 from hi) with
  | 0, _ => exact ⟨1, by decide, by decide, trivial⟩
  | 1, _ => exact ⟨2, by decide, by decide, trivial⟩

/-- A row of one byte that announces three: the copy takes two bytes of
the next row. -/
theorem not_appendsOwnParts_truncated :
    ¬ AppendsOwnParts .avx2 false true true (.ofRows [[0xE4], [0x61, 0x62, 0x63]]) .new 1 1 ∧
      substr .avx2 false true true (.ofRows [[0xE4], [0x61, 0x62, 0x63]]) .new 1 1 =
        some (.ofRows [[0xE4, 0x61, 0x62], [0x61]]) := by
  refine ⟨?_, by decide⟩
  rintro ⟨p, -, hp⟩
  obtain ⟨hbody, hwithin, -⟩ := hp 0 (by decide)
  have hpiece : substrBody .avx2 false true true (.ofRows [[0xE4], [0x61, 0x62, 0x63]]) 1 1
      ((BinaryColumn.ofRows [[0xE4], [0x61, 0x62, 0x63]]).getSlice 0) = some (.range 0 3) := by
    decide
  rw [hpiece, Option.some.injEq] at hbody
  rw [← hbody] at hwithin
  exact absurd hwithin (by decide)

/-! ## One row each -/

/-- **`substr` appends one row for each row of the source, and leaves the
rows already present.** -/
def AppendsOneRowEach (simd : Simd) (checkAscii useLength lookupTable : Bool)
    (src dst : BinaryColumn) (offset len : ℤ) : Prop :=
  ∃ dst', substr simd checkAscii useLength lookupTable src dst offset len = some dst' ∧
    dst'.size = dst.size + src.size ∧ ∀ j, j < dst.size → dst'.row j = dst.row j

/-- Offset `0` appends nothing at all; any other offset needs rows that an
`int` counts, and the buffer to hold what is copied. -/
theorem appendsOneRowEach_iff (hsrc : src.OffsetsOk) (hdst : dst.OffsetsOk)
    (hmin : -2147483648 ≤ offset) (hmax : offset < 2147483648) (hlen : 0 ≤ len)
    (hlen' : len < 2147483648) :
    AppendsOneRowEach simd checkAscii useLength lookupTable src dst offset len ↔
      src.size = 0 ∨ (offset ≠ 0 ∧ src.size < 2147483648 ∧ ∀ i, i < src.size →
        RowFits (src.bytes.length - (src.getSlice i).stop)
          (checkAscii && validateAsciiFast simd src.bytes) useLength lookupTable offset len
          (src.row i)) := by
  rcases eq_or_ne offset 0 with rfl | hoff
  · have hzero : substr simd checkAscii useLength lookupTable src dst 0 len = some dst := by
      rw [substr, if_pos rfl]
    simp only [AppendsOneRowEach, hzero, Option.some.injEq, exists_eq_left', ne_eq, not_true,
      false_and, or_false, implies_true, and_true]
    omega
  have hheld : ∀ i, i < src.size → _ := fun i hi =>
    substrBody_held_iff simd checkAscii useLength lookupTable hsrc hi hoff ⟨hmin, hmax⟩ hlen hlen'
  simp only [AppendsOneRowEach, substr_eq_forRows _ _ _ _ _ _ hoff]
  constructor
  · rintro ⟨dst', hrun, -⟩
    obtain ⟨hcount, hpiece⟩ := BinaryColumn.held_of_forRows hrun
    exact Or.inr ⟨hoff, hcount, fun i hi => (hheld i hi).1 (hpiece i hi)⟩
  · intro h
    obtain ⟨p, hp⟩ := BinaryColumn.exists_pieces fun i hi =>
      (hheld i hi).2 ((h.resolve_left (by omega)).2.2 i hi)
    have hcount : src.size < 2147483648 := by
      rcases h with h | ⟨-, h, -⟩ <;> omega
    refine ⟨_, BinaryColumn.forRows_eq_some hcount hp, ?_, fun j hj =>
      (BinaryColumn.extends_appendAll _ dst).row_eq hdst hj⟩
    rw [BinaryColumn.size_appendAll hdst.offsets_ne_nil, List.length_map, List.length_range]

/-- A truncated character with two bytes behind it in the buffer still
makes one row. -/
theorem appendsOneRowEach_iff_truncated :
    AppendsOneRowEach .sse2 false true false (.ofRows [[0xE4], [0x61, 0x62, 0x63]])
      (.ofRows [[0x7A]]) 1 1 := by
  refine (appendsOneRowEach_iff _ _ _ _ (BinaryColumn.offsetsOk_ofRows (by decide))
    (BinaryColumn.offsetsOk_ofRows (by decide)) (by decide) (by decide) (by decide)
    (by decide)).2 (Or.inr ⟨by decide, by decide, fun i hi => Or.inl ?_⟩)
  match i, (show i < 2 from hi) with
  | 0, _ => exact ⟨3, by decide, by decide, trivial⟩
  | 1, _ => exact ⟨1, by decide, by decide, trivial⟩

/-- Offset `0` loses the row of a source of one row. -/
theorem not_appendsOneRowEach_zero :
    ¬ AppendsOneRowEach .avx2 false true true (.ofRows [[0x61]]) .new 0 1 := by
  rintro ⟨dst', hrun, hsize, -⟩
  have hsame : substr .avx2 false true true (.ofRows [[0x61]]) .new 0 1 = some .new := rfl
  rw [hsame, Option.some.injEq] at hrun
  subst hrun
  exact absurd hsize (by decide)

end Dispatch

end StringFunctions

end CppEtudes
