import CppEtudes.Concat.Model.Concat
import CppEtudes.StringFunctions.Column

/-!
# Horizontal concatenation

`concat_horizontally` writes the offset behind every row and none in
front of the first. Where the rows begin is therefore right from the
second row on (`foldlM_concatRow`), and the first row begins wherever the
fresh memory says.
-/

namespace CppEtudes

namespace Concat

open StringFunctions

variable {columns : List BinaryColumn} {n i : ℕ} {fresh : ℕ → UInt32}

/-- Row `i` of every column, in order. -/
def joinedRow (columns : List BinaryColumn) (i : ℕ) : List Byte := columns.flatMap fun c => c.row i

/-- The first `k` of them, one after the other. -/
def joinedRows (columns : List BinaryColumn) (k : ℕ) : List Byte :=
  ((List.range k).map (joinedRow columns)).flatten

theorem joinedRows_succ (columns : List BinaryColumn) (k : ℕ) :
    joinedRows columns (k + 1) = joinedRows columns k ++ joinedRow columns k := by
  rw [joinedRows, List.range_succ, List.map_append, List.flatten_append, List.map_singleton,
    List.flatten_singleton]
  rfl

theorem joinedRows_prefix {k m : ℕ} (h : k ≤ m) :
    joinedRows columns k <+: joinedRows columns m := by
  induction m, h using Nat.le_induction with
  | base => exact List.prefix_rfl
  | succ m _ ih => exact ih.trans (joinedRows_succ columns m ▸ List.prefix_append _ _)

/-- Columns that keep the invariant and have `n` rows each. -/
def Uniform (columns : List BinaryColumn) (n : ℕ) : Prop :=
  ∀ c ∈ columns, c.OffsetsOk ∧ c.size = n

/-- The bytes of all columns. -/
def totalBytes (columns : List BinaryColumn) : ℕ := (columns.map fun c => c.bytes.length).sum

/-! ## Sizes -/

/-- The joined rows are no more bytes than the columns have. -/
theorem length_joinedRows_le (h : Uniform columns n) {k : ℕ} (hk : k ≤ n) :
    (joinedRows columns k).length ≤ totalBytes columns := by
  induction columns with
  | nil =>
    have hnil : ∀ m, joinedRows [] m = [] := by
      intro m
      induction m with
      | zero => rfl
      | succ m ih => rw [joinedRows_succ, ih]; rfl
    rw [hnil]
    exact Nat.zero_le _
  | cons c columns ih =>
    obtain ⟨hok, hsize⟩ := h c (by simp)
    -- the rows of the first column and those of the others, interleaved
    have hsplit : ∀ m, (joinedRows (c :: columns) m).length =
        ((List.range m).map c.row).flatten.length + (joinedRows columns m).length := by
      intro m
      induction m with
      | zero => rfl
      | succ m ihm =>
        rw [joinedRows_succ, joinedRows_succ, List.range_succ, List.map_append, List.flatten_append,
          List.map_singleton, List.flatten_singleton, joinedRow, List.flatMap_cons]
        simp only [List.length_append, ihm, joinedRow]
        omega
    have hrest := ih fun c hc => h c (by simp [hc])
    have hfirst : ((List.range k).map c.row).flatten.length ≤ c.bytes.length := by
      rw [hok.flatten_rows k (by omega), List.length_take]
      omega
    rw [hsplit, totalBytes, List.map_cons, List.sum_cons]
    rw [totalBytes] at hrest
    omega

/-! ## The loops -/

theorem foldlM_insertSlice (h : Uniform columns n) (hi : i < n) (bytes : List Byte) :
    columns.foldlM (insertSlice i) bytes = some (bytes ++ joinedRow columns i) := by
  induction columns generalizing bytes with
  | nil => simp [joinedRow]
  | cons c columns ih =>
    obtain ⟨hok, hsize⟩ := h c (by simp)
    have hslice : insertSlice i bytes c = some (bytes ++ c.row i) :=
      if_pos ⟨by omega, hok.getSlice_stop_le (by omega)⟩
    rw [List.foldlM_cons, hslice, Option.bind_eq_bind, Option.bind_some,
      ih (fun c hc => h c (by simp [hc])), joinedRow, joinedRow, List.flatMap_cons,
      List.append_assoc]

/-- **What the loop has after `k` rows**: their bytes, and the end of each
for an offset. The first offset is still the fresh one. -/
structure Filled (fresh : ℕ → UInt32) (columns : List BinaryColumn) (n k : ℕ)
    (result : BinaryColumn) : Prop where
  bytes : result.bytes = joinedRows columns k
  length : result.offsets.length = n + 1
  first : result.offsets.getD 0 0 = (fresh 0).toNat
  ends : ∀ j, j < k → result.offsets.getD (j + 1) 0 = (joinedRows columns (j + 1)).length

theorem filled_zero (fresh : ℕ → UInt32) (columns : List BinaryColumn) (n : ℕ) :
    Filled fresh columns n 0 ⟨[], (List.range (n + 1)).map fun k => (fresh k).toNat⟩ where
  bytes := rfl
  length := by rw [List.length_map, List.length_range]
  first := by
    rw [List.getD_eq_getElem _ _ (by rw [List.length_map, List.length_range]; omega),
      List.getElem_map, List.getElem_range]
  ends j hj := by omega

/-- One row more. -/
theorem Filled.concatRow {k : ℕ} {result : BinaryColumn} (hf : Filled fresh columns n k result)
    (h : Uniform columns n) (htotal : totalBytes columns < 4294967296) (hk : k < n)
    (hint : k + 1 < 2147483648) :
    ∃ result', Concat.concatRow columns result k = some result' ∧
      Filled fresh columns n (k + 1) result' := by
  have hlt : (joinedRows columns (k + 1)).length < 4294967296 :=
    (length_joinedRows_le h hk).trans_lt htotal
  have hlen := hf.length
  refine ⟨⟨joinedRows columns (k + 1), result.offsets.set (k + 1)
    (joinedRows columns (k + 1)).length⟩, ?_, rfl, by rw [List.length_set, hlen], ?_, ?_⟩
  · rw [Concat.concatRow, foldlM_insertSlice h hk, hf.bytes, ← joinedRows_succ,
      Option.bind_eq_bind, Option.bind_some, Machine.intAdd, if_pos hint, Nat.mod_eq_of_lt hlt]
    rfl
  · rw [List.getD_eq_getElem?_getD, List.getElem?_set_ne (by omega), ← List.getD_eq_getElem?_getD,
      hf.first]
  · intro j hj
    rw [List.getD_eq_getElem?_getD]
    rcases Nat.eq_or_lt_of_le (Nat.le_of_lt_succ hj) with rfl | hjk
    · rw [List.getElem?_set_self (by omega), Option.getD_some]
    · rw [List.getElem?_set_ne (by omega), ← List.getD_eq_getElem?_getD, hf.ends j hjk]

/-- **The run**, as far as the counter goes. -/
theorem exists_filled (fresh : ℕ → UInt32) (h : Uniform columns n)
    (htotal : totalBytes columns < 4294967296) {k : ℕ} (hk : k ≤ n) (hint : k < 2147483648) :
    ∃ result, (List.range k).foldlM (Concat.concatRow columns)
        ⟨[], (List.range (n + 1)).map fun k => (fresh k).toNat⟩ = some result ∧
      Filled fresh columns n k result := by
  induction k with
  | zero => exact ⟨_, rfl, filled_zero fresh columns n⟩
  | succ k ih =>
    obtain ⟨result, hrun, hf⟩ := ih (by omega) (by omega)
    obtain ⟨result', hstep, hf'⟩ := hf.concatRow h htotal (by omega) hint
    refine ⟨result', ?_, hf'⟩
    rw [List.range_succ (n := k), List.foldlM_append, hrun, Option.bind_eq_bind, Option.bind_some,
      List.foldlM_cons, hstep]
    rfl

/-! ## The rows of the result -/

theorem Filled.size {k : ℕ} {result : BinaryColumn} (hf : Filled fresh columns n k result) :
    result.size = n := by
  rw [BinaryColumn.size, hf.length, Nat.add_sub_cancel]

/-- A row whose offset is right is the joined one. -/
theorem Filled.getSlice {result : BinaryColumn} (hf : Filled fresh columns n n result)
    (h : Uniform columns n) (htotal : totalBytes columns < 4294967296) (hi : i < n)
    (hdata : result.offsets.getD i 0 = (joinedRows columns i).length) :
    result.getSlice i = ⟨(joinedRows columns i).length, (joinedRow columns i).length⟩ := by
  have hlt : (joinedRows columns (i + 1)).length < 4294967296 :=
    (length_joinedRows_le h hi).trans_lt htotal
  have hstep : (joinedRows columns (i + 1)).length =
      (joinedRows columns i).length + (joinedRow columns i).length := by
    rw [joinedRows_succ, List.length_append]
  simp only [BinaryColumn.getSlice, hdata, hf.ends i hi, Slice.mk.injEq, true_and]
  omega

/-- With a first offset of `0` the result holds the joined rows. -/
theorem Filled.holdsRows {result : BinaryColumn} (hf : Filled fresh columns n n result)
    (h : Uniform columns n) (htotal : totalBytes columns < 4294967296) (hfresh : fresh 0 = 0) :
    result.HoldsRows ((List.range n).map (joinedRow columns)) := by
  have hslice : ∀ i, i < n →
      result.getSlice i = ⟨(joinedRows columns i).length, (joinedRow columns i).length⟩ := by
    intro i hi
    refine hf.getSlice h htotal hi ?_
    cases i with
    | zero => rw [hf.first, hfresh]; rfl
    | succ i => exact hf.ends i (by omega)
  have hpre : ∀ i, i < n → joinedRows columns i ++ joinedRow columns i <+: result.bytes := by
    intro i hi
    rw [hf.bytes, ← joinedRows_succ]
    exact joinedRows_prefix hi
  refine ⟨fun i hi => ?_, ?_⟩
  · rw [hf.size] at hi
    rw [hslice i hi, Slice.stop, ← List.length_append]
    exact (hpre i hi).length_le
  · rw [BinaryColumn.toVector, hf.size]
    refine List.map_congr_left fun i hi => ?_
    obtain ⟨rest, hrest⟩ := hpre i (List.mem_range.1 hi)
    rw [BinaryColumn.row, hslice i (List.mem_range.1 hi), BinaryColumn.read, ← hrest,
      List.append_assoc, List.drop_left, List.take_left]

/-- Without it the first row has another length. -/
theorem Filled.fresh_eq_zero {result : BinaryColumn} (hf : Filled fresh columns n n result)
    (h : Uniform columns n) (htotal : totalBytes columns < 4294967296) (hn : 0 < n)
    (hrows : result.HoldsRows ((List.range n).map (joinedRow columns))) : fresh 0 = 0 := by
  have hlt : (joinedRows columns 1).length < 4294967296 :=
    (length_joinedRows_le h hn).trans_lt htotal
  have hone : joinedRows columns 1 = joinedRow columns 0 := by rw [joinedRows_succ]; rfl
  have hlen := hrows.row_length (i := 0) (by rw [hf.size]; exact hn)
  rw [BinaryColumn.row_eq_of_toVector hrows.toVector (by rw [List.length_range]; exact hn),
    List.getElem_range, BinaryColumn.getSlice, hf.first, hf.ends 0 hn, Nat.zero_add, hone] at hlen
  have hword : (fresh 0).toNat < 4294967296 := (fresh 0).toNat_lt
  rw [hone] at hlt
  simp only at hlen
  have hzero : (fresh 0).toNat = 0 := by omega
  exact UInt32.toNat_inj.1 hzero

/-- **The rows are joined exactly where the fresh memory begins with `0`**
and the counter reaches every row, or there is no row. -/
theorem concatHorizontally_iff (fresh : ℕ → UInt32) (columns : List BinaryColumn) (n : ℕ)
    (hne : columns ≠ []) (h : Uniform columns n) (htotal : totalBytes columns < 4294967296) :
    (∃ result, concatHorizontally fresh columns = some result ∧
      result.HoldsRows ((List.range n).map fun i => columns.flatMap fun c => c.row i)) ↔
    n = 0 ∨ (fresh 0 = 0 ∧ n < 2147483648) := by
  have hrun : concatHorizontally fresh columns = (List.range n).foldlM (concatRow columns)
      ⟨[], (List.range (n + 1)).map fun k => (fresh k).toNat⟩ := by
    obtain ⟨first, rest, rfl⟩ := List.exists_cons_of_ne_nil hne
    rw [concatHorizontally, List.head?_cons, Option.bind_eq_bind, Option.bind_some,
      (h first (by simp)).2]
  have hrow : (fun i => columns.flatMap fun c => c.row i) = joinedRow columns := rfl
  rw [hrun, hrow]
  constructor
  · rintro ⟨result, hres, hrows⟩
    rcases Nat.eq_zero_or_pos n with hn | hn
    · exact Or.inl hn
    have hint : n < 2147483648 := by
      by_contra hge
      -- the row whose number has no successor among the `int`s
      obtain ⟨k, hk⟩ : ∃ k, k + 1 = 2147483648 := ⟨2147483647, by omega⟩
      obtain ⟨r, r', hstep⟩ := exists_step_of_foldlM _ _ _ hres k (List.mem_range.2 (by omega))
      rw [concatRow, foldlM_insertSlice h (by omega), Option.bind_eq_bind, Option.bind_some,
        Machine.intAdd, if_neg (by omega)] at hstep
      cases hstep
    obtain ⟨result', hres', hf⟩ := exists_filled fresh h htotal le_rfl hint
    rw [hres', Option.some.injEq] at hres
    subst hres
    exact Or.inr ⟨hf.fresh_eq_zero h htotal hn hrows, hint⟩
  · intro hcond
    obtain ⟨result, hres, hf⟩ := exists_filled fresh h htotal le_rfl (by omega)
    refine ⟨result, hres, ?_⟩
    rcases hcond with hn | ⟨hfresh, -⟩
    · have hsize : result.size = 0 := hf.size.trans hn
      refine ⟨fun i hi => absurd hi (by omega), ?_⟩
      rw [BinaryColumn.toVector, hsize, hn, List.range_zero, List.map_nil, List.map_nil]
    · exact hf.holdsRows h htotal hfresh

/-- A column with the row `a` and one with the row `b`. -/
def lettersAB : List BinaryColumn := [BinaryColumn.ofRows [[97]], BinaryColumn.ofRows [[98]]]

theorem uniform_lettersAB : Uniform lettersAB 1 := by
  intro c hc
  simp only [lettersAB, List.mem_cons, List.not_mem_nil, or_false] at hc
  rcases hc with rfl | rfl
  · exact ⟨BinaryColumn.offsetsOk_ofRows (by decide), rfl⟩
  · exact ⟨BinaryColumn.offsetsOk_ofRows (by decide), rfl⟩

theorem concatHorizontally_iff_lettersAB :
    ∃ result, concatHorizontally UInt32.ofNat lettersAB = some result ∧
      result.HoldsRows ((List.range 1).map fun i => lettersAB.flatMap fun c => c.row i) :=
  (concatHorizontally_iff UInt32.ofNat lettersAB 1 (List.cons_ne_nil _ _) uniform_lettersAB
    (by decide)).2 (Or.inr ⟨rfl, by decide⟩)

/-- Where the fresh words are ones, `a` joined with `b` reads `b`. -/
theorem concatHorizontally_freshOnes :
    Uniform lettersAB 1 ∧ totalBytes lettersAB < 4294967296 ∧
    concatHorizontally (fun _ => 1) lettersAB = some ⟨[97, 98], [1, 2]⟩ ∧
    (⟨[97, 98], [1, 2]⟩ : BinaryColumn).row 0 = [98] ∧
    lettersAB.flatMap (fun c => c.row 0) = [97, 98] :=
  ⟨uniform_lettersAB, by decide, by decide, by decide, by decide⟩

end Concat

end CppEtudes
