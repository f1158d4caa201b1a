import CppEtudes.StringFunctions.Utf8
import CppEtudes.StringFunctions.Model.CaseVector

/-!
# Upper and lower case of a column, by every variant

The vector loops compare the wrong way round and are never entered
(`sse2Loop_eq`), so a conversion is the scalar function mapped over the
text. The variants that copy row by row and those that map the whole
buffer then build the same column, since the rows of a column determine
it. `upper_vector_copy_1_times` writes every row to the start of the
buffer and pushes sizes where offsets are due: it is right only where all
rows but the last are empty.
-/

namespace CppEtudes

namespace StringFunctions

variable {src dst c : BinaryColumn} {lane scalar f : Byte → Byte}

/-! ## Letters -/

/-- A letter is flipped as the scalar functions do, by bytes and by signed
characters. -/
theorem flip_eq (b : Byte) :
    (flipByte 0x61 0x7A b = toupper b ∧ flipChar 0x61 0x7A b = toupper b) ∧
      flipByte 0x41 0x5A b = tolower b ∧ flipChar 0x41 0x5A b = tolower b := by
  revert b
  exact forall_byte (by decide +kernel)

theorem flipByte_upper (b : Byte) : flipByte 0x61 0x7A b = toupper b := (flip_eq b).1.1

theorem flipChar_upper (b : Byte) : flipChar 0x61 0x7A b = toupper b := (flip_eq b).1.2

theorem flipByte_lower (b : Byte) : flipByte 0x41 0x5A b = tolower b := (flip_eq b).2.1

theorem flipChar_lower (b : Byte) : flipChar 0x41 0x5A b = tolower b := (flip_eq b).2.2

/-! ## Conversions -/

/-- **The vector loop is never entered**: it starts at the first byte,
which is not behind the last whole register. -/
theorem sse2Loop_eq (lane : Byte → Byte) (text : List Byte) (sse2End fuel q : ℕ)
    (buffer : List Byte) :
    sse2Loop lane text sse2End fuel 0 q buffer = some (0, q, buffer) := by
  cases fuel with
  | zero => rfl
  | succ fuel => rw [sse2Loop, if_neg (Nat.not_lt_zero _)]

theorem convert_eq (lane scalar : Byte → Byte) (text : List Byte) (q : ℕ) (buffer : List Byte) :
    convert lane scalar text q buffer =
      (writeAt buffer q (text.map scalar)).map fun buffer => (q, buffer) := by
  rw [convert, sse2Loop_eq]
  simp only [Option.bind_eq_bind, Option.bind_some, List.drop_zero, Option.map_eq_bind]
  rfl

/-- Over a buffer as long as the text nothing of its content is left. -/
theorem convert_zero {text buffer : List Byte} (h : buffer.length = text.length) :
    convert lane scalar text 0 buffer = some (0, text.map scalar) := by
  rw [convert_eq, writeAt, List.length_map, if_pos (by omega), List.take_zero,
    List.drop_eq_nil_of_le (by omega), List.nil_append, List.append_nil, Option.map_some]

theorem convertInPlace_eq (buffer : List Byte) :
    convertInPlace lane scalar buffer = some (buffer.map scalar) := by
  rw [convertInPlace, convert_zero rfl, Option.map_some]

/-! ## The column of the converted rows -/

/-- A loop that appends a value for each row. -/
theorem forSlices_append (hrows : src.size < 2147483648)
    {step : Slice → BinaryColumn → Option BinaryColumn} {f : List Byte → List Byte}
    (hstep : ∀ s d, step s d = some (d.append (f (src.read s)))) (dst : BinaryColumn) :
    src.forSlices step dst = some (dst.appendAll (src.toVector.map f)) := by
  rw [BinaryColumn.forSlices_eq, if_pos hrows, BinaryColumn.appendAll, BinaryColumn.toVector,
    List.map_map, List.foldl_map]
  simp only [hstep]
  exact List.foldlM_pure ..

theorem upperVectorOld_eq (hrows : src.size < 2147483648) (dst : BinaryColumn) :
    upperVectorOld src dst = some (dst.appendAll (src.toVector.map upperOld)) :=
  forSlices_append hrows (fun _ _ => rfl) dst

theorem lowerVectorOld_eq (hrows : src.size < 2147483648) (dst : BinaryColumn) :
    lowerVectorOld src dst = some (dst.appendAll (src.toVector.map lowerOld)) :=
  forSlices_append hrows (fun _ _ => rfl) dst

theorem row_mapBytes (src : BinaryColumn) (f : Byte → Byte) (i : ℕ) :
    (⟨src.bytes.map f, src.offsets⟩ : BinaryColumn).row i = (src.row i).map f := by
  have hslice : (⟨src.bytes.map f, src.offsets⟩ : BinaryColumn).getSlice i = src.getSlice i := by
    simp only [BinaryColumn.getSlice]
  rw [BinaryColumn.row, BinaryColumn.row, hslice, BinaryColumn.read, BinaryColumn.read,
    List.map_take, List.map_drop]

/-- **Mapping the buffer maps the rows.** -/
theorem mapBytes_eq (h : src.OffsetsOk) (f : Byte → Byte) :
    (⟨src.bytes.map f, src.offsets⟩ : BinaryColumn) =
      BinaryColumn.new.appendAll (src.toVector.map fun r => r.map f) := by
  have hok : (⟨src.bytes.map f, src.offsets⟩ : BinaryColumn).OffsetsOk :=
    ⟨h.head, h.sorted, by simpa only [List.length_map] using h.last,
      by simpa only [List.length_map] using h.bound⟩
  have hrows : (⟨src.bytes.map f, src.offsets⟩ : BinaryColumn).toVector =
      src.toVector.map fun r => r.map f := by
    have hsize : (⟨src.bytes.map f, src.offsets⟩ : BinaryColumn).size = src.size := by
      simp only [BinaryColumn.size]
    rw [BinaryColumn.toVector, BinaryColumn.toVector, List.map_map, hsize]
    refine List.map_congr_left ?_
    intro i _
    rw [row_mapBytes, Function.comp_apply]
  rw [← BinaryColumn.ofRows_eq_appendAll, ← hrows]
  exact hok.eq_ofRows

/-! ## The variants -/

theorem caseVectorNew1_eq (h : src.OffsetsOk) {c₀ c₁ : Byte} (hf : ∀ b, flipByte c₀ c₁ b = f b) :
    caseVectorNew1 c₀ c₁ src dst =
      some (BinaryColumn.new.appendAll (src.toVector.map fun r => r.map f)) := by
  have hflip : flipByte c₀ c₁ = f := funext hf
  rw [caseVectorNew1, convertInPlace_eq, hflip, ← mapBytes_eq h]
  rfl

theorem caseVectorNew2_eq (h : src.OffsetsOk) {c₀ c₁ : Byte} (hf : ∀ b, flipChar c₀ c₁ b = f b)
    (useRaw : Bool) (fresh : ℕ → Byte) :
    caseVectorNew2 useRaw fresh c₀ c₁ src dst =
      some (BinaryColumn.new.appendAll (src.toVector.map fun r => r.map f)) := by
  have hflip : flipChar c₀ c₁ = f := funext hf
  have hlength : (if useRaw then (List.range src.bytes.length).map fresh
      else resize dst.bytes src.bytes.length).length = src.bytes.length := by
    cases useRaw with
    | true => simp
    | false =>
      simp only [resize, Bool.false_eq_true, if_false, List.length_append, List.length_take,
        List.length_replicate]
      omega
  simp only [caseVectorNew2]
  rw [convert_zero hlength, hflip, ← mapBytes_eq h]
  rfl

theorem upperVectorCopy3Times_eq (hrows : src.size < 2147483648) (dst : BinaryColumn) :
    upperVectorCopy3Times src dst = some (dst.appendAll (src.toVector.map upperOld)) := by
  refine forSlices_append hrows (fun s d => ?_) dst
  rw [convertInPlace_eq]
  rfl

theorem size_append (hc : c.OffsetsOk) (s : List Byte) : (c.append s).size = c.size + 1 :=
  BinaryColumn.size_appendAll hc.offsets_ne_nil [s]

theorem getLastSlice_append (hc : c.OffsetsOk) (hrows : c.size + 1 < 2147483648)
    (s : List Byte) : (c.append s).getLastSlice = some ((c.append s).getSlice c.size) := by
  have hlast : ((c.append s).size : ℤ) - 1 = c.size := by
    rw [size_append hc]
    omega
  rw [BinaryColumn.getLastSlice, hlast, Machine.wrap32_of_inInt ⟨by omega, by omega⟩,
    BinaryColumn.getSlice?_natCast, if_pos hrows]

/-- **Converting the slice just appended** is appending it converted. -/
theorem convertLastSlice_append (hc : c.OffsetsOk) (hrows : c.size + 1 < 2147483648)
    {s : List Byte} (hs : c.bytes.length + s.length < 4294967296) :
    convertLastSlice lane scalar (c.append s) = some (c.append (s.map scalar)) := by
  have hread : (c.append s).read ((c.append s).getSlice c.size) = s := hc.row_append hs
  have hdata : ((c.append s).getSlice c.size).data = c.bytes.length := by
    rw [hc.getSlice_append hs]
  have hwrite : writeAt (c.append s).bytes c.bytes.length (s.map scalar) =
      some (c.bytes ++ s.map scalar) := by
    have hbytes : (c.append s).bytes = c.bytes ++ s := rfl
    rw [hbytes, writeAt, List.length_map, List.length_append, if_pos le_rfl, List.take_left,
      List.drop_eq_nil_of_le (by rw [List.length_append]), List.append_nil]
  have hresult : (⟨c.bytes ++ s.map scalar, (c.append s).offsets⟩ : BinaryColumn) =
      c.append (s.map scalar) := by
    simp only [BinaryColumn.append, List.length_map]
  rw [convertLastSlice, getLastSlice_append hc hrows, Option.bind_eq_bind, Option.bind_some, hread,
    convertInPlace_eq, Option.bind_eq_bind, Option.bind_some, hdata, hwrite, Option.bind_some,
    hresult]
  rfl

/-- The run over any rows: the destination keeps the invariant, and has
room for the rows to come. -/
theorem foldlM_convertLastSlice (is : List ℕ) : ∀ d : BinaryColumn, d.OffsetsOk →
    d.size + is.length < 2147483648 →
    d.bytes.length + (is.map src.row).flatten.length < 4294967296 →
    is.foldlM (fun d i => convertLastSlice lane scalar (d.append (src.row i))) d =
      some (d.appendAll ((is.map src.row).map fun r => r.map scalar)) := by
  induction is with
  | nil => intro d _ _ _; rfl
  | cons i is ih =>
    intro d hd hrows hroom
    rw [List.map_cons, List.flatten_cons, List.length_append] at hroom
    rw [List.length_cons] at hrows
    have hnext : (d.append ((src.row i).map scalar)).bytes.length =
        d.bytes.length + (src.row i).length := by
      rw [BinaryColumn.bytes_append, List.length_append, List.length_map]
    rw [List.foldlM_cons, convertLastSlice_append hd (by omega) (by omega), Option.bind_eq_bind,
      Option.bind_some, ih _ (hd.append (by rw [List.length_map]; omega))
        (by rw [size_append hd]; omega) (by omega),
      List.map_cons, List.map_cons, BinaryColumn.appendAll_cons]

theorem upperVectorCopy2Times_eq (hsrc : src.OffsetsOk) (hrows : src.size < 2147483648) :
    upperVectorCopy2Times src .new =
      some (BinaryColumn.new.appendAll (src.toVector.map upperOld)) := by
  have hflip : flipChar 0x61 0x7A = toupper := funext flipChar_upper
  have hroom : BinaryColumn.new.bytes.length +
      ((List.range src.size).map src.row).flatten.length < 4294967296 := by
    have hbound := hsrc.bound
    have hall := congrArg List.length hsrc.flatten_toVector
    rw [BinaryColumn.toVector] at hall
    rw [hall, BinaryColumn.new, List.length_nil]
    omega
  have hcount : BinaryColumn.new.size + (List.range src.size).length < 2147483648 := by
    rw [List.length_range]
    exact (Nat.zero_add _).trans_lt hrows
  rw [upperVectorCopy2Times, hflip, BinaryColumn.forSlices_eq, if_pos hrows]
  exact foldlM_convertLastSlice _ _ BinaryColumn.offsetsOk_new hcount hroom

/-- **All variants but one build the same column** from a column that
keeps the invariant and whose rows an `int` counts, into an empty one. -/
theorem caseVector_variants (hsrc : src.OffsetsOk) (hrows : src.size < 2147483648) (useRaw : Bool)
    (fresh : ℕ → Byte) :
    ∃ upper lower, upperVectorOld src .new = some upper ∧ lowerVectorOld src .new = some lower ∧
      upperVectorNew1 src .new = some upper ∧
      upperVectorNew2 useRaw fresh src .new = some upper ∧
      upperVectorCopy2Times src .new = some upper ∧
      upperVectorCopy3Times src .new = some upper ∧
      lowerVectorNew1 src .new = some lower ∧
      lowerVectorNew2 useRaw fresh src .new = some lower :=
  ⟨_, _, upperVectorOld_eq hrows .new, lowerVectorOld_eq hrows .new,
    caseVectorNew1_eq hsrc flipByte_upper, caseVectorNew2_eq hsrc flipChar_upper useRaw fresh,
    upperVectorCopy2Times_eq hsrc hrows, upperVectorCopy3Times_eq hrows .new,
    caseVectorNew1_eq hsrc flipByte_lower, caseVectorNew2_eq hsrc flipChar_lower useRaw fresh⟩

/-- `aB` and `z!`, with a raw buffer full of `FF`. -/
theorem caseVector_variants_twoRows :
    ∃ upper lower, upperVectorOld (.ofRows [[0x61, 0x42], [0x7A, 0x21]]) .new = some upper ∧
      lowerVectorOld (.ofRows [[0x61, 0x42], [0x7A, 0x21]]) .new = some lower ∧
      upperVectorNew1 (.ofRows [[0x61, 0x42], [0x7A, 0x21]]) .new = some upper ∧
      upperVectorNew2 true (fun _ => 0xFF) (.ofRows [[0x61, 0x42], [0x7A, 0x21]]) .new =
        some upper ∧
      upperVectorCopy2Times (.ofRows [[0x61, 0x42], [0x7A, 0x21]]) .new = some upper ∧
      upperVectorCopy3Times (.ofRows [[0x61, 0x42], [0x7A, 0x21]]) .new = some upper ∧
      lowerVectorNew1 (.ofRows [[0x61, 0x42], [0x7A, 0x21]]) .new = some lower ∧
      lowerVectorNew2 true (fun _ => 0xFF) (.ofRows [[0x61, 0x42], [0x7A, 0x21]]) .new =
        some lower :=
  caseVector_variants (BinaryColumn.offsetsOk_ofRows (by decide)) (by decide) true fun _ => 0xFF

/-- **Of more rows than an `int` counts** the whole-buffer variant makes
the column, `upper_vector_old` has no result. -/
theorem upperVectorOld_emptyRows :
    upperVectorNew1 .emptyRows .new = some .emptyRows ∧
      upperVectorOld .emptyRows .new = none := by
  refine ⟨?_, BinaryColumn.forSlices_emptyRows _ _⟩
  refine (caseVectorNew1_eq BinaryColumn.offsetsOk_emptyRows flipByte_upper).trans ?_
  rw [BinaryColumn.toVector_emptyRows, List.map_replicate, List.map_nil,
    ← BinaryColumn.ofRows_eq_appendAll]
  rfl

/-! ## `upper_vector_copy_1_times` -/

theorem toVector_upperVectorOld (hsrc : src.OffsetsOk) :
    (BinaryColumn.new.appendAll (src.toVector.map upperOld)).toVector =
      (List.range src.size).map fun i => upperOld (src.row i) := by
  have hlt : (src.toVector.map upperOld).flatten.length < 4294967296 := by
    have hbound := hsrc.bound
    rw [← hsrc.flatten_toVector] at hbound
    have hmap : (src.toVector.map upperOld).flatten = src.toVector.flatten.map toupper :=
      List.map_flatten.symm
    rwa [hmap, List.length_map]
  rw [← BinaryColumn.ofRows_eq_appendAll, BinaryColumn.toVector_ofRows hlt,
    BinaryColumn.toVector, List.map_map]
  rfl

/-- One row: it is written to the start of the buffer, and its size is
pushed. -/
theorem upperCopy1Row_eq (hsrc : src.OffsetsOk) {i : ℕ} (hi : i < src.size) {d : BinaryColumn}
    (hd : (src.row i).length ≤ d.bytes.length) :
    upperCopy1Row src (src.getSlice i) (d, 0) =
      some (⟨upperOld (src.row i) ++ d.bytes.drop (src.row i).length,
        d.offsets ++ [(src.row i).length]⟩, 0) := by
  have hlt := hsrc.row_length_lt hi
  have hwrite : writeAt d.bytes 0 ((src.row i).map toupper) =
      some (upperOld (src.row i) ++ d.bytes.drop (src.row i).length) := by
    rw [writeAt, List.length_map, Nat.zero_add, if_pos hd, List.take_zero, List.nil_append,
      upperOld]
  have hread : src.read (src.getSlice i) = src.row i := rfl
  rw [upperCopy1Row, hread, convert_eq, hwrite, ← hsrc.row_length hi, Nat.mod_eq_of_lt hlt]
  rfl

/-- **After `n` rows** the offsets are the sizes of the rows, and the
buffer starts with the last of them. -/
theorem foldlM_upperCopy1Row (hsrc : src.OffsetsOk) {buffer : List Byte}
    (hbuffer : buffer.length = src.bytes.length) (n : ℕ) (hn : n ≤ src.size) :
    ∃ bytes, (List.range n).foldlM (fun s i => upperCopy1Row src (src.getSlice i) s)
          (⟨buffer, [0]⟩, 0) =
        some (⟨bytes, 0 :: (List.range n).map fun i => (src.row i).length⟩, 0) ∧
      bytes.length = src.bytes.length ∧
      ∀ i, i + 1 = n → bytes.take (src.row i).length = upperOld (src.row i) := by
  induction n with
  | zero => exact ⟨buffer, rfl, hbuffer, fun i hi => by omega⟩
  | succ n ih =>
    obtain ⟨bytes, hrun, hlen, -⟩ := ih (by omega)
    have hfits : (src.row n).length ≤ bytes.length := by
      have hstop := hsrc.getSlice_stop_le (i := n) hn
      rw [Slice.stop] at hstop
      rw [hlen, hsrc.row_length hn]
      omega
    refine ⟨upperOld (src.row n) ++ bytes.drop (src.row n).length, ?_, ?_, ?_⟩
    · rw [List.range_succ, List.foldlM_append, hrun, Option.bind_eq_bind, Option.bind_some,
        List.foldlM_cons, upperCopy1Row_eq hsrc hn hfits, List.map_append]
      rfl
    · rw [List.length_append, upperOld, List.length_map, List.length_drop]
      omega
    · intro i hi
      obtain rfl : i = n := by omega
      rw [List.take_append_of_le_length (by rw [upperOld, List.length_map]), upperOld,
        List.take_of_length_le (by rw [List.length_map])]

/-- **Sizes for offsets.** A column whose offsets are the sizes of the rows
and whose buffer starts with the last of them holds the rows exactly
where all but the last are empty. -/
theorem holdsRows_iff_of_sizes {d : BinaryColumn} (rows : ℕ → List Byte) {n : ℕ}
    (hsize : d.size = n) (hfirst : d.offsets.getD 0 0 = 0)
    (hoffset : ∀ i, i < n → d.offsets.getD (i + 1) 0 = (rows i).length)
    (hlt : ∀ i, i < n → (rows i).length < 4294967296)
    (hfits : ∀ i, i < n → (rows i).length ≤ d.bytes.length)
    (hlast : ∀ i, i + 1 = n → d.bytes.take (rows i).length = rows i) :
    d.HoldsRows ((List.range n).map rows) ↔ ∀ i, i + 1 < n → rows i = [] := by
  have hslice : ∀ i, i < n → (d.getSlice i).size =
      ((rows i).length + 4294967296 - d.offsets.getD i 0) % 4294967296 :=
    fun i hi => by simp only [BinaryColumn.getSlice, hoffset i hi]
  constructor
  · intro hrows i hi
    have hrow : d.row (i + 1) = rows (i + 1) := by
      have hget := congrArg (fun l => l[i + 1]?) hrows.toVector
      simpa [BinaryColumn.toVector, hsize, hi] using hget
    have hlength := hrows.row_length (i := i + 1) (by omega)
    have h₁ := hlt i (by omega)
    have h₂ := hlt (i + 1) hi
    rw [hrow, hslice _ hi, hoffset i (by omega)] at hlength
    exact List.length_eq_zero_iff.1 (by omega)
  · intro hempty
    -- every row starts at the start of the buffer
    have hstart : ∀ i, i < n → (d.getSlice i).data = 0 := by
      intro i hi
      cases i with
      | zero => exact hfirst
      | succ i => exact (hoffset i (by omega)).trans (by rw [hempty i hi, List.length_nil])
    have hwhole : ∀ i, i < n → (d.getSlice i).size = (rows i).length := by
      intro i hi
      have hdata : d.offsets.getD i 0 = 0 := hstart i hi
      have := hlt i hi
      rw [hslice i hi, hdata]
      omega
    refine ⟨fun i hi => ?_, ?_⟩
    · rw [hsize] at hi
      rw [Slice.stop, hstart i hi, hwhole i hi, Nat.zero_add]
      exact hfits i hi
    · rw [BinaryColumn.toVector, hsize]
      refine List.map_congr_left fun i hi => ?_
      rw [List.mem_range] at hi
      rw [BinaryColumn.row, BinaryColumn.read, hstart i hi, hwhole i hi, List.drop_zero]
      by_cases hend : i + 1 = n
      · exact hlast i hend
      · rw [hempty i (by omega)]
        rfl

/-- **`upper_vector_copy_1_times` is right exactly where an `int` counts
the rows and all but the last are empty**, into a destination whose bytes
are as many as the source's. -/
theorem upperVectorCopy1Times_iff (hsrc : src.OffsetsOk) {buffer : List Byte}
    (hbuffer : buffer.length = src.bytes.length) :
    (∃ d upper, upperVectorCopy1Times src ⟨buffer, [0]⟩ = some d ∧
        upperVectorOld src .new = some upper ∧ d.HoldsRows upper.toVector) ↔
      src.size < 2147483648 ∧ ∀ i, i + 1 < src.size → src.row i = [] := by
  by_cases hrows : src.size < 2147483648
  swap
  · rw [upperVectorOld, BinaryColumn.forSlices_eq, if_neg hrows]
    simp [hrows]
  obtain ⟨bytes, hrun, hlen, hlast⟩ := foldlM_upperCopy1Row hsrc hbuffer src.size le_rfl
  obtain ⟨d, hd⟩ : ∃ d : BinaryColumn,
    d = ⟨bytes, 0 :: (List.range src.size).map fun i => (src.row i).length⟩ := ⟨_, rfl⟩
  have hlength : ∀ i, (upperOld (src.row i)).length = (src.row i).length :=
    fun i => List.length_map _
  have hsize : d.size = src.size := by
    rw [hd]
    simp [BinaryColumn.size]
  have hoffset : ∀ i, i < src.size → d.offsets.getD (i + 1) 0 = (upperOld (src.row i)).length := by
    intro i hi
    rw [hd, List.getD_cons_succ,
      List.getD_eq_getElem _ _ (by rwa [List.length_map, List.length_range]), List.getElem_map,
      List.getElem_range, hlength]
  have hfits : ∀ i, i < src.size → (upperOld (src.row i)).length ≤ d.bytes.length := by
    intro i hi
    have hstop := hsrc.getSlice_stop_le hi
    rw [Slice.stop] at hstop
    rw [hlength, hsrc.row_length hi, hd]
    simp only
    omega
  have hiff := holdsRows_iff_of_sizes (fun i => upperOld (src.row i)) hsize (by rw [hd]; rfl)
    hoffset (fun i hi => by rw [hlength]; exact hsrc.row_length_lt hi) hfits
    fun i hi => by rw [hlength, hd]; exact hlast i hi
  have hempty : ∀ i, upperOld (src.row i) = [] ↔ src.row i = [] := fun i => List.map_eq_nil_iff
  simp only [hempty] at hiff
  rw [upperVectorCopy1Times, BinaryColumn.forSlices_eq, if_pos hrows, hrun, ← hd,
    upperVectorOld_eq hrows]
  simpa only [Option.map_some, Option.some.injEq, exists_and_left, exists_eq_left', hrows,
    true_and, toVector_upperVectorOld hsrc] using hiff

/-- An empty row in front of the last. -/
theorem upperVectorCopy1Times_iff_last :
    ∃ d upper, upperVectorCopy1Times (.ofRows [[], [0x61, 0x62]]) ⟨[0, 0], [0]⟩ = some d ∧
      upperVectorOld (.ofRows [[], [0x61, 0x62]]) .new = some upper ∧ d.HoldsRows upper.toVector :=
  (upperVectorCopy1Times_iff (BinaryColumn.offsetsOk_ofRows (by decide)) (by decide)).2
    ⟨by decide, fun i hi => by
      obtain rfl : i = 0 := by
        have : (BinaryColumn.ofRows [[], [0x61, 0x62]]).size = 2 := by decide
        omega
      decide⟩

/-- **Of two rows the second is written over the first, and its offset is
its size.** -/
theorem upperVectorCopy1Times_twoRows :
    (upperVectorCopy1Times (.ofRows [[0x61], [0x62]]) ⟨[0, 0], [0]⟩).map BinaryColumn.toVector =
        some [[0x42], []] ∧
      (upperVectorOld (.ofRows [[0x61], [0x62]]) .new).map BinaryColumn.toVector =
        some [[0x41], [0x42]] := by
  decide

end StringFunctions

end CppEtudes
