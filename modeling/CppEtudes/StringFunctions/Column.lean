import CppEtudes.Common.Fuel
import CppEtudes.StringFunctions.Model.Column
import Mathlib.Data.List.GetD

/-!
# Binary columns — rows, slices and appending

What the offsets invariant gives a reader (`getSlice_stop_le`,
`row_length`), what `append` leaves in place (`Extends`), and what a
kernel's loop does to its destination: it has a result exactly where an
`int` counts the rows and every body has a piece that the source buffer
holds, and the result is the destination with those pieces appended.
-/

namespace CppEtudes

namespace StringFunctions

namespace BinaryColumn

variable {c c' src dst : BinaryColumn} {i : ℕ} {body : Slice → Option Piece}

/-! ## Slices of a column that keeps the invariant -/

section Offsets

variable (h : c.OffsetsOk)
include h

theorem OffsetsOk.offsets_ne_nil : c.offsets ≠ [] := by
  intro hnil
  have := h.head
  rw [hnil] at this
  cases this

theorem OffsetsOk.length_offsets : c.offsets.length = c.size + 1 := by
  have := List.length_pos_iff.2 h.offsets_ne_nil
  unfold size
  omega

/-- Offsets ascend with the row. -/
theorem OffsetsOk.getD_le {i j : ℕ} (hij : i ≤ j) (hj : j ≤ c.size) :
    c.offsets.getD i 0 ≤ c.offsets.getD j 0 := by
  have hlen := h.length_offsets
  rw [List.getD_eq_getElem _ _ (by omega), List.getD_eq_getElem _ _ (by omega)]
  rcases Nat.eq_or_lt_of_le hij with rfl | hlt
  · exact le_rfl
  · exact List.pairwise_iff_getElem.1 h.sorted i j (by omega) (by omega) hlt

theorem OffsetsOk.getD_size : c.offsets.getD c.size 0 = c.bytes.length := by
  have hlen := h.length_offsets
  have hlast := h.last
  rw [List.getLast?_eq_getElem?] at hlast
  rw [List.getD_eq_getElem?_getD, show c.size = c.offsets.length - 1 from rfl, hlast]
  rfl

theorem OffsetsOk.getD_le_length (hi : i ≤ c.size) : c.offsets.getD i 0 ≤ c.bytes.length :=
  h.getD_size ▸ h.getD_le hi le_rfl

/-- **A slice ends where the next row begins.** -/
theorem OffsetsOk.getSlice_stop (hi : i < c.size) :
    (c.getSlice i).stop = c.offsets.getD (i + 1) 0 := by
  have h₁ := h.getD_le (Nat.le_add_right i 1) hi
  have h₂ := h.getD_le_length (i := i + 1) hi
  have h₃ := h.bound
  simp only [Slice.stop, getSlice]
  omega

theorem OffsetsOk.getSlice_stop_le (hi : i < c.size) : (c.getSlice i).stop ≤ c.bytes.length :=
  h.getSlice_stop hi ▸ h.getD_le_length hi

theorem OffsetsOk.row_length (hi : i < c.size) : (c.row i).length = (c.getSlice i).size := by
  have := h.getSlice_stop_le hi
  simp only [Slice.stop] at this
  simp only [row, read, List.length_take, List.length_drop]
  omega

theorem OffsetsOk.row_length_lt (hi : i < c.size) : (c.row i).length < 4294967296 := by
  have h₁ := h.getSlice_stop_le hi
  have h₂ := h.bound
  rw [h.row_length hi]
  simp only [Slice.stop] at h₁
  omega

end Offsets

/-- A row's bytes are bytes of the column. -/
theorem mem_bytes_of_mem_row {b : Byte} (hb : b ∈ c.row i) : b ∈ c.bytes :=
  List.mem_of_mem_drop (List.mem_of_mem_take hb)

/-- Reading a byte of the row is reading the buffer at its position. -/
theorem getD_row {i k : ℕ} (hk : k < (c.getSlice i).size) :
    c.bytes.getD ((c.getSlice i).data + k) 0 = (c.row i).getD k 0 := by
  simp [row, read, List.getD_eq_getElem?_getD, List.getElem?_drop, hk]

/-- The rest of a row from position `a` on, as a range of the buffer. -/
theorem drop_take_stop (i a : ℕ) :
    (c.bytes.take (c.getSlice i).stop).drop ((c.getSlice i).data + a) = (c.row i).drop a := by
  rw [row, read, Slice.stop, List.take_drop, List.drop_drop]

/-- A range that starts inside a row, read from the row and what follows
it. -/
theorem value_range {a b : ℕ} :
    (Piece.range ((c.getSlice i).data + a : ℕ) ((c.getSlice i).data + b : ℕ)).value c.bytes =
      ((c.bytes.drop (c.getSlice i).data).drop a).take (b - a) := by
  simp only [Piece.value, Int.toNat_natCast, List.drop_drop]
  congr 1
  omega

/-- Inside the row it is a part of the row. -/
theorem value_range_row {a b : ℕ} (hb : b ≤ (c.getSlice i).size) :
    (Piece.range ((c.getSlice i).data + a : ℕ) ((c.getSlice i).data + b : ℕ)).value c.bytes =
      ((c.row i).drop a).take (b - a) := by
  rw [value_range, row, read]
  rcases Nat.le_total b a with h | h
  · simp [Nat.sub_eq_zero_of_le h]
  · rw [List.drop_take, List.take_take, Nat.min_eq_left (by omega)]

/-- **A piece within a row is a contiguous part of it.** -/
theorem value_infix_of_within {p : Piece} (h : p.Within (c.getSlice i)) :
    p.value c.bytes <:+: c.row i := by
  cases p with
  | empty => exact List.nil_infix
  | range first last =>
    obtain ⟨h₁, h₂, h₃⟩ := h
    simp only [Slice.stop] at h₃
    obtain ⟨a, rfl⟩ : ∃ a : ℕ, first = ((c.getSlice i).data + a : ℕ) :=
      ⟨(first - (c.getSlice i).data).toNat, by omega⟩
    obtain ⟨b, rfl⟩ : ∃ b : ℕ, last = ((c.getSlice i).data + b : ℕ) :=
      ⟨(last - (c.getSlice i).data).toNat, by omega⟩
    rw [value_range_row (by omega)]
    exact (List.take_prefix _ _).isInfix.trans (List.drop_suffix _ _).isInfix

/-- Where rows keep the invariant, a piece within one of them is held. -/
theorem OffsetsOk.held_of_within (h : c.OffsetsOk) (hi : i < c.size) {p : Piece}
    (hp : p.Within (c.getSlice i)) : p.Held c.bytes := by
  cases p with
  | empty => trivial
  | range first last =>
    obtain ⟨h₁, h₂, h₃⟩ := hp
    have := h.getSlice_stop_le hi
    exact ⟨by omega, h₂, by omega⟩

/-! ## Appending -/

/-- Everything `c` holds is still there in `c'`. -/
structure Extends (c c' : BinaryColumn) : Prop where
  bytes : c.bytes <+: c'.bytes
  offsets : c.offsets <+: c'.offsets

theorem Extends.refl (c : BinaryColumn) : c.Extends c := ⟨List.prefix_rfl, List.prefix_rfl⟩

theorem Extends.trans {c'' : BinaryColumn} (h : c.Extends c') (h' : c'.Extends c'') :
    c.Extends c'' :=
  ⟨h.bytes.trans h'.bytes, h.offsets.trans h'.offsets⟩

theorem bytes_append (c : BinaryColumn) (s : List Byte) : (c.append s).bytes = c.bytes ++ s := rfl

theorem appendAll_cons (d : BinaryColumn) (v : List Byte) (vs : List (List Byte)) :
    d.appendAll (v :: vs) = (d.append v).appendAll vs := rfl

theorem extends_append (c : BinaryColumn) (s : List Byte) : c.Extends (c.append s) :=
  ⟨List.prefix_append _ _, List.prefix_append _ _⟩

theorem extends_appendAll (values : List (List Byte)) :
    ∀ c : BinaryColumn, c.Extends (c.appendAll values) := by
  induction values with
  | nil => intro c; exact Extends.refl c
  | cons v values ih => intro c; exact (extends_append c v).trans (ih (c.append v))

/-- **The rows already present stay what they are.** -/
theorem Extends.row_eq (h : c.Extends c') (hc : c.OffsetsOk) {j : ℕ} (hj : j < c.size) :
    c'.row j = c.row j := by
  have hlen := hc.length_offsets
  obtain ⟨more, hmore⟩ := h.offsets
  obtain ⟨tail, htail⟩ := h.bytes
  have hslice : c'.getSlice j = c.getSlice j := by
    simp only [getSlice, ← hmore]
    rw [List.getD_append _ _ _ _ (by omega), List.getD_append _ _ _ _ (by omega)]
  have hstop := hc.getSlice_stop_le hj
  simp only [Slice.stop] at hstop
  rw [row, row, hslice, read, read, ← htail, List.drop_append_of_le_length (by omega),
    List.take_append_of_le_length (by rw [List.length_drop]; omega)]

theorem length_offsets_appendAll (values : List (List Byte)) :
    ∀ c : BinaryColumn, (c.appendAll values).offsets.length = c.offsets.length + values.length := by
  induction values with
  | nil => intro c; rfl
  | cons v values ih =>
    intro c
    change ((c.append v).appendAll values).offsets.length = _
    rw [ih, append]
    simp only [List.length_append, List.length_cons, List.length_nil]
    omega

theorem size_appendAll (hc : c.offsets ≠ []) (values : List (List Byte)) :
    (c.appendAll values).size = c.size + values.length := by
  have := List.length_pos_iff.2 hc
  simp only [size, length_offsets_appendAll]
  omega

/-- **`append` keeps the invariant** as long as a `uint32_t` holds the
number of bytes. -/
theorem OffsetsOk.append (h : c.OffsetsOk) {s : List Byte}
    (hs : c.bytes.length + s.length < 4294967296) : (c.append s).OffsetsOk where
  head := by
    have := h.head
    rw [List.head?_eq_some_iff] at this
    obtain ⟨rest, hrest⟩ := this
    simp only [BinaryColumn.append, hrest, List.cons_append, List.head?_cons]
  sorted := by
    simp only [BinaryColumn.append, List.pairwise_append, List.pairwise_singleton, true_and,
      List.mem_singleton, forall_eq]
    refine ⟨h.sorted, fun o ho => ?_⟩
    obtain ⟨i, hi, rfl⟩ := List.mem_iff_getElem.1 ho
    have hle := h.getD_le_length (i := i) (by have := h.length_offsets; omega)
    rw [List.getD_eq_getElem _ _ hi] at hle
    rw [h.last, Option.getD_some, Nat.mod_eq_of_lt hs]
    omega
  last := by
    simp only [BinaryColumn.append, List.getLast?_append, List.getLast?_singleton, Option.some_or,
      h.last, Option.getD_some, List.length_append, Nat.mod_eq_of_lt hs]
  bound := by
    simpa only [BinaryColumn.append, List.length_append] using hs

theorem OffsetsOk.appendAll (values : List (List Byte)) : ∀ {c : BinaryColumn}, c.OffsetsOk →
    c.bytes.length + values.flatten.length < 4294967296 → (c.appendAll values).OffsetsOk := by
  induction values with
  | nil => intro c h _; exact h
  | cons v values ih =>
    intro c h hlt
    rw [List.flatten_cons, List.length_append] at hlt
    refine ih (h.append (by omega)) ?_
    rw [BinaryColumn.append, List.length_append]
    omega

theorem offsetsOk_new : new.OffsetsOk :=
  ⟨rfl, List.pairwise_singleton _ _, rfl, by decide⟩

/-- **A column built by appending keeps the invariant.** -/
theorem offsetsOk_ofRows {rows : List (List Byte)} (h : rows.flatten.length < 4294967296) :
    (ofRows rows).OffsetsOk := by
  exact offsetsOk_new.appendAll rows (by simpa only [new, List.length_nil, Nat.zero_add] using h)

/-! ## The rows of a column built by appending -/

theorem ofRows_eq_appendAll (rows : List (List Byte)) : ofRows rows = new.appendAll rows := rfl

theorem ofRows_concat (rows : List (List Byte)) (r : List Byte) :
    ofRows (rows ++ [r]) = (ofRows rows).append r := by
  rw [ofRows, List.foldl_append]
  rfl

theorem size_ofRows (rows : List (List Byte)) : (ofRows rows).size = rows.length :=
  (size_appendAll (c := new) (List.cons_ne_nil 0 []) rows).trans (Nat.zero_add _)

theorem bytes_ofRows (rows : List (List Byte)) : (ofRows rows).bytes = rows.flatten := by
  induction rows using List.reverseRecOn with
  | nil => rfl
  | append_singleton rows r ih => rw [ofRows_concat, append, ih, List.flatten_concat]

/-- The slice of the row just appended. -/
theorem OffsetsOk.getSlice_append (h : c.OffsetsOk) {s : List Byte}
    (hs : c.bytes.length + s.length < 4294967296) :
    (c.append s).getSlice c.size = ⟨c.bytes.length, s.length⟩ := by
  have hlen := h.length_offsets
  simp only [getSlice, BinaryColumn.append, Slice.mk.injEq]
  rw [List.getD_append _ _ _ _ (by omega), h.getD_size, List.getD_append_right _ _ _ _ (by omega),
    hlen, Nat.sub_self, List.getD_cons_zero, h.last, Option.getD_some]
  omega

theorem OffsetsOk.row_append (h : c.OffsetsOk) {s : List Byte}
    (hs : c.bytes.length + s.length < 4294967296) : (c.append s).row c.size = s := by
  rw [row, h.getSlice_append hs, read, BinaryColumn.append, List.drop_left, List.take_length]

/-- **The rows are the appended ones.** -/
theorem row_ofRows {rows : List (List Byte)} (h : rows.flatten.length < 4294967296)
    (hi : i < rows.length) : (ofRows rows).row i = rows[i] := by
  induction rows using List.reverseRecOn with
  | nil => exact absurd hi (Nat.not_lt_zero i)
  | append_singleton rows r ih =>
    rw [List.flatten_concat, List.length_append] at h
    rw [List.length_append, List.length_singleton] at hi
    have hok : (ofRows rows).OffsetsOk := offsetsOk_ofRows (by omega)
    rw [ofRows_concat]
    rcases Nat.lt_or_ge i rows.length with hlt | hge
    · rw [(extends_append _ r).row_eq hok (by rw [size_ofRows]; exact hlt), ih (by omega) hlt,
        List.getElem_append_left hlt]
    · obtain rfl : i = (ofRows rows).size := by
        rw [size_ofRows]
        omega
      rw [hok.row_append (by rw [bytes_ofRows]; exact h)]
      simp [size_ofRows]

/-! ## A column is its rows -/

/-- The rows below `n` fill the buffer up to where row `n` begins. -/
theorem OffsetsOk.flatten_rows (h : c.OffsetsOk) (n : ℕ) (hn : n ≤ c.size) :
    ((List.range n).map c.row).flatten = c.bytes.take (c.offsets.getD n 0) := by
  induction n with
  | zero =>
    have hhead := h.head
    rw [List.head?_eq_getElem?] at hhead
    simp [List.getD_eq_getElem?_getD, hhead]
  | succ n ih =>
    have hstop := h.getSlice_stop (i := n) hn
    simp only [Slice.stop] at hstop
    rw [List.range_succ, List.map_append, List.flatten_append, ih (by omega), List.map_singleton,
      List.flatten_singleton, row, read, ← hstop, List.take_add]
    rfl

theorem OffsetsOk.flatten_toVector (h : c.OffsetsOk) : c.toVector.flatten = c.bytes := by
  rw [toVector, h.flatten_rows _ le_rfl, h.getD_size, List.take_length]

theorem length_toVector (c : BinaryColumn) : c.toVector.length = c.size := by
  simp [toVector]

/-- **Under the invariant the rows determine the column.** -/
theorem OffsetsOk.eq_of_toVector (h : c.OffsetsOk) (h' : c'.OffsetsOk)
    (hrows : c.toVector = c'.toVector) : c = c' := by
  have hsize : c.size = c'.size := by rw [← length_toVector, hrows, length_toVector]
  have hbytes : c.bytes = c'.bytes := by rw [← h.flatten_toVector, hrows, h'.flatten_toVector]
  have hlen := h.length_offsets
  have hlen' := h'.length_offsets
  have hrow : ∀ i, i < c.size → c.row i = c'.row i := by
    intro i hi
    have := congrArg (fun l => l[i]?) hrows
    simpa [toVector, hi, ← hsize] using this
  have hoffset : ∀ i, i ≤ c.size → c.offsets.getD i 0 = c'.offsets.getD i 0 := by
    intro i hi
    have hmap : (List.range i).map c.row = (List.range i).map c'.row :=
      List.map_congr_left fun j hj => hrow j (by have := List.mem_range.1 hj; omega)
    have hlength := congrArg (fun l => l.flatten.length) hmap
    have := h.getD_le_length hi
    have := h'.getD_le_length (hsize ▸ hi)
    simp only [h.flatten_rows i hi, h'.flatten_rows i (hsize ▸ hi), List.length_take] at hlength
    omega
  have hoffsets : c.offsets = c'.offsets := by
    refine List.ext_getElem (by omega) fun i h₁ h₂ => ?_
    rw [← List.getD_eq_getElem _ 0 h₁, ← List.getD_eq_getElem _ 0 h₂]
    exact hoffset i (by omega)
  cases c
  cases c'
  simp_all

theorem toVector_ofRows {rows : List (List Byte)} (h : rows.flatten.length < 4294967296) :
    (ofRows rows).toVector = rows := by
  refine List.ext_getElem (by rw [length_toVector, size_ofRows]) fun i h₁ h₂ => ?_
  simp only [toVector, List.getElem_map, List.getElem_range]
  exact row_ofRows h h₂

/-- So every column that keeps the invariant is one built by appending. -/
theorem OffsetsOk.eq_ofRows (h : c.OffsetsOk) : c = ofRows c.toVector := by
  have hlt : c.toVector.flatten.length < 4294967296 := by
    rw [h.flatten_toVector]
    exact h.bound
  exact h.eq_of_toVector (offsetsOk_ofRows hlt) (toVector_ofRows hlt).symm

/-- **A column whose rows can be read and are the given ones**: every
slice ends inside the buffer. -/
structure HoldsRows (c : BinaryColumn) (rows : List (List Byte)) : Prop where
  held : ∀ i, i < c.size → (c.getSlice i).stop ≤ c.bytes.length
  toVector : c.toVector = rows

theorem HoldsRows.row_length {rows : List (List Byte)} (h : c.HoldsRows rows) (hi : i < c.size) :
    (c.row i).length = (c.getSlice i).size := by
  have hheld := h.held i hi
  rw [Slice.stop] at hheld
  rw [row, read, List.length_take, List.length_drop]
  omega

/-! ## The loops over the rows -/

theorem getSlice?_natCast (c : BinaryColumn) (i : ℕ) :
    c.getSlice? i = if i + 1 < 2147483648 then some (c.getSlice i) else none := by
  rw [getSlice?, Int.toNat_natCast]
  exact if_congr (by omega) rfl rfl

section Slices

variable {σ : Type} (src : BinaryColumn) (step : Slice → σ → Option σ) (s : σ)

/-- **A loop over the rows** passes them all, and has no result where an
`int` does not count them. -/
theorem forSlices_eq :
    src.forSlices step s = if src.size < 2147483648 then
      (List.range src.size).foldlM (fun s i => step (src.getSlice i) s) s else none := by
  rw [forSlices, IntLoop.forEach_eq, List.length_range]
  refine ite_congr rfl (fun hsize => foldlM_congr (fun i hi s => ?_) s) fun _ => rfl
  rw [List.mem_range] at hi
  rw [getSlice?_natCast, if_pos (by omega)]
  rfl

/-- **A `size_t` counts no more of them**: `get_slice` stops it. -/
theorem forSlicesSizeT_eq : src.forSlicesSizeT step s = src.forSlices step s := by
  rw [forSlices_eq, forSlicesSizeT]
  split_ifs with hsize
  · refine foldlM_congr (fun i hi s => ?_) s
    rw [List.mem_range] at hi
    rw [Machine.wrap32_of_inInt ⟨by omega, by omega⟩, getSlice?_natCast, if_pos (by omega)]
    rfl
  · rw [Option.eq_none_iff_forall_ne_some]
    intro s' hrun
    obtain ⟨_, _, hround⟩ := exists_step_of_foldlM _ s s' hrun 2147483647
      (List.mem_range.2 (by omega))
    have hstop : src.getSlice? (Machine.wrap32 (2147483647 : ℕ)) = none := rfl
    rw [hstop] at hround
    cases hround

end Slices

/-- More rows than an `int` counts, and not a byte in them. -/
def emptyRows : BinaryColumn := ofRows (List.replicate 2147483648 [])

theorem length_flatten_replicate_nil_lt (n : ℕ) :
    (List.replicate n ([] : List Byte)).flatten.length < 4294967296 := by
  rw [List.flatten_replicate_nil]
  exact Nat.zero_lt_succ _

theorem offsetsOk_emptyRows : emptyRows.OffsetsOk :=
  offsetsOk_ofRows (length_flatten_replicate_nil_lt _)

theorem toVector_emptyRows : emptyRows.toVector = List.replicate 2147483648 [] :=
  toVector_ofRows (length_flatten_replicate_nil_lt _)

/-- No loop gets through them. -/
theorem forSlices_emptyRows {σ : Type} (step : Slice → σ → Option σ) (s : σ) :
    emptyRows.forSlices step s = none := by
  have hsize : emptyRows.size = 2147483648 := by
    rw [emptyRows, size_ofRows, List.length_replicate]
  rw [forSlices_eq, hsize, if_neg (Nat.lt_irrefl _)]

theorem forRowsSizeT_eq (src : BinaryColumn) (body : Slice → Option Piece) (dst : BinaryColumn) :
    src.forRowsSizeT body dst = src.forRows body dst := forSlicesSizeT_eq ..

theorem appendBody_eq_some {s : Slice} {d d' : BinaryColumn} :
    src.appendBody body s d = some d' ↔ ∃ p, body s = some p ∧
      p.Held src.bytes ∧ d' = d.append (p.value src.bytes) := by
  simp only [appendBody, Option.bind_eq_bind, Option.bind_eq_some_iff, appendPiece]
  constructor
  · rintro ⟨p, hp, hd⟩
    split at hd
    · rename_i hheld
      exact ⟨p, hp, hheld, by simpa using hd.symm⟩
    · cases hd
  · rintro ⟨p, hp, hheld, rfl⟩
    exact ⟨p, hp, if_pos hheld⟩

/-- The loop over any list of rows, from the pieces of its bodies. -/
theorem foldlM_appendBody {p : ℕ → Piece} (is : List ℕ) :
    ∀ d : BinaryColumn, (∀ i ∈ is, body (src.getSlice i) = some (p i) ∧ (p i).Held src.bytes) →
    is.foldlM (fun d i => src.appendBody body (src.getSlice i) d) d =
      some (d.appendAll (is.map fun i => (p i).value src.bytes)) := by
  induction is with
  | nil => intro d _; rfl
  | cons i is ih =>
    intro d h
    obtain ⟨hbody, hheld⟩ := h i (by simp)
    rw [List.foldlM_cons, appendBody_eq_some.2 ⟨p i, hbody, hheld, rfl⟩]
    exact ih _ fun j hj => h j (by simp [hj])

/-- **The loop of a kernel appends one value for each row.** -/
theorem forRows_eq_some {p : ℕ → Piece} (hrows : src.size < 2147483648)
    (h : ∀ i, i < src.size → body (src.getSlice i) = some (p i) ∧ (p i).Held src.bytes) :
    src.forRows body dst =
      some (dst.appendAll ((List.range src.size).map fun i => (p i).value src.bytes)) := by
  rw [forRows, forSlices_eq, if_pos hrows]
  exact foldlM_appendBody _ dst fun i hi => h i (List.mem_range.1 hi)

/-- **And it has a result only so.** -/
theorem held_of_forRows {d : BinaryColumn} (h : src.forRows body dst = some d) :
    src.size < 2147483648 ∧
      ∀ i, i < src.size → ∃ p, body (src.getSlice i) = some p ∧ p.Held src.bytes := by
  rw [forRows, forSlices_eq, Option.ite_none_right_eq_some] at h
  refine ⟨h.1, fun i hi => ?_⟩
  obtain ⟨_, _, hstep⟩ := exists_step_of_foldlM _ dst d h.2 i (List.mem_range.2 hi)
  obtain ⟨p, hp, hheld, -⟩ := appendBody_eq_some.1 hstep
  exact ⟨p, hp, hheld⟩

/-! ## Which values were appended -/

/-- **The appended values can be read back**: lengths below `2^32` are
the differences of the offsets, whatever the destination held. -/
theorem appendAll_injective (vs : List (List Byte)) : ∀ {ws : List (List Byte)} {d : BinaryColumn},
    (∀ v ∈ vs, v.length < 4294967296) → (∀ w ∈ ws, w.length < 4294967296) →
    d.appendAll vs = d.appendAll ws → vs = ws := by
  induction vs with
  | nil =>
    intro ws d _ _ h
    have hlen := congrArg (fun c => c.offsets.length) h
    simp only [length_offsets_appendAll, List.length_nil] at hlen
    exact (List.length_eq_zero_iff.1 (by omega)).symm
  | cons v vs ih =>
    intro ws d hv hw h
    cases ws with
    | nil =>
      have hlen := congrArg (fun c => c.offsets.length) h
      simp only [length_offsets_appendAll, List.length_nil, List.length_cons] at hlen
      omega
    | cons w ws =>
      change (d.append v).appendAll vs = (d.append w).appendAll ws at h
      -- both continuations extend their own first column, so its offsets and bytes agree
      have hv' := extends_appendAll vs (d.append v)
      have hw' := h ▸ extends_appendAll ws (d.append w)
      have hoffsets : (d.append v).offsets = (d.append w).offsets :=
        (List.prefix_of_prefix_length_le hv'.offsets hw'.offsets (by simp [append])).eq_of_length
          (by simp [append])
      have hlast := List.append_cancel_left hoffsets
      have hvlt := hv v (by simp)
      have hwlt := hw w (by simp)
      have hsame : v.length = w.length := by
        simp only [List.cons.injEq, and_true] at hlast
        omega
      have hbytes : (d.append v).bytes = (d.append w).bytes :=
        (List.prefix_of_prefix_length_le hv'.bytes hw'.bytes (by simp [append, hsame])).eq_of_length
          (by simp [append, hsame])
      obtain rfl : v = w := List.append_cancel_left hbytes
      rw [ih (fun x hx => hv x (by simp [hx])) (fun x hx => hw x (by simp [hx])) h]

theorem length_value_le {bytes : List Byte} {p : Piece} (h : p.Held bytes) :
    (p.value bytes).length ≤ bytes.length := by
  cases p with
  | empty => exact Nat.zero_le _
  | range first last =>
    simp only [Piece.value, List.length_take, List.length_drop]
    omega

section Rows

variable {α : Type} {rows : List α} {f g : α → List Byte}

theorem size_eq_of_toVector (h : src.toVector = rows.map g) : src.size = rows.length := by
  have := congrArg List.length h
  simpa [toVector] using this

theorem row_eq_of_toVector (h : src.toVector = rows.map g) (hi : i < rows.length) :
    src.row i = g rows[i] := by
  have hsize := size_eq_of_toVector h
  have := congrArg (fun l => l[i]?) h
  simpa [toVector, hsize, hi] using this

/-- A piece for each row, chosen by its index. -/
theorem exists_pieces {P : ℕ → Piece → Prop} {n : ℕ} (h : ∀ i, i < n → ∃ p, P i p) :
    ∃ p : ℕ → Piece, ∀ i, i < n → P i (p i) := by
  have hall : ∀ i, ∃ p, i < n → P i p := by
    intro i
    by_cases hi : i < n
    · exact (h i hi).imp fun _ hp _ => hp
    · exact ⟨.empty, fun hc => absurd hc hi⟩
  choose p hp using hall
  exact ⟨p, hp⟩

/-- The loop appends the values of the pieces its bodies have. -/
theorem forRows_eq_appendAll (hsize : src.size = rows.length) (hrows : rows.length < 2147483648)
    (h : ∀ (i : ℕ) (hi : i < rows.length), ∃ p, body (src.getSlice i) = some p ∧
      p.Held src.bytes ∧ p.value src.bytes = f rows[i]) :
    src.forRows body dst = some (dst.appendAll (rows.map f)) := by
  obtain ⟨p, hp⟩ := exists_pieces (n := src.size) (P := fun i q => body (src.getSlice i) = some q ∧
      q.Held src.bytes ∧ ∀ hi : i < rows.length, q.value src.bytes = f rows[i]) fun i hi => by
    obtain ⟨q, hq, hheld, hvalue⟩ := h i (by omega)
    exact ⟨q, hq, hheld, fun _ => hvalue⟩
  rw [forRows_eq_some (p := p) (by omega) fun i hi => ⟨(hp i hi).1, (hp i hi).2.1⟩]
  congr 2
  refine List.ext_getElem (by simp [hsize]) fun i h₁ h₂ => ?_
  have hi : i < src.size := by simpa using h₁
  simpa using (hp i hi).2.2 (by omega)

/-- **And where they can be told apart, only those.** -/
theorem forRows_eq_appendAll_iff (hsrc : src.OffsetsOk) (hsize : src.size = rows.length)
    (hf : ∀ r ∈ rows, (f r).length < 4294967296) :
    src.forRows body dst = some (dst.appendAll (rows.map f)) ↔
      rows.length < 2147483648 ∧
      ∀ (i : ℕ) (hi : i < rows.length), ∃ p, body (src.getSlice i) = some p ∧
        p.Held src.bytes ∧ p.value src.bytes = f rows[i] := by
  refine ⟨fun h => ?_, fun h => forRows_eq_appendAll hsize h.1 h.2⟩
  obtain ⟨hrows, hheld⟩ := held_of_forRows h
  refine ⟨hsize ▸ hrows, fun i hi => ?_⟩
  obtain ⟨p, hp⟩ := exists_pieces hheld
  rw [forRows_eq_some hrows hp, Option.some.injEq] at h
  have hlist := appendAll_injective _ ?_ ?_ h
  · have hvalue := congrArg (fun l => l[i]?) hlist
    obtain ⟨hbody, hheld⟩ := hp i (by omega)
    exact ⟨p i, hbody, hheld, by simpa [hsize, hi] using hvalue⟩
  · intro v hv
    obtain ⟨j, hj, rfl⟩ := List.mem_map.1 hv
    have := length_value_le (hp j (List.mem_range.1 hj)).2
    have := hsrc.bound
    omega
  · intro v hv
    obtain ⟨r, hr, rfl⟩ := List.mem_map.1 hv
    exact hf r hr

end Rows

end BinaryColumn

end StringFunctions

end CppEtudes
