import CppEtudes.Concat.Model.Concat
import CppEtudes.StringFunctions.Column
import Mathlib.Algebra.Order.BigOperators.Group.List

/-!
# What vertical concatenation leaves in the buffer

A table is given by its columns, each a list of rows. The key of a row is
the concatenation of its fields, each behind its length. At any time of
the two loops the log holds the writes of the fields so far, each behind
the size of those before it (`Logged`). Where no size wraps around, they
tile the region of the row from the start on (`Laid`). Each field has at
most the maximal length of its column, so the key fits the region.
-/

namespace CppEtudes

namespace Concat

open StringFunctions BinaryColumn

/-! ## Keys -/

/-- A field behind its length. -/
def field (r : List Byte) : List Byte := littleEndian 4 r.length ++ r

theorem length_field (r : List Byte) : (field r).length = 4 + r.length := by
  rw [field, List.length_append, length_littleEndian]

theorem selfDelimiting_field : SelfDelimiting (fun r : List Byte => r.length < 4294967296) field :=
  (selfDelimiting_littleEndian 4).lengthPrefixed

/-- The longest of the rows. -/
def maxLength (rows : List (List Byte)) : ℕ := rows.foldl (fun m r => max m r.length) 0

/-- **The maximal row size** of a table. -/
def maxRowSize (table : List (List (List Byte))) : ℕ := (table.map fun rows => maxLength rows + 4).sum

theorem maxRowSize_cons (rows : List (List Byte)) (table : List (List (List Byte))) :
    maxRowSize (rows :: table) = maxLength rows + 4 + maxRowSize table := by
  rw [maxRowSize, List.map_cons, List.sum_cons]
  rfl

/-- The bytes of row `i`. -/
def key (table : List (List (List Byte))) (i : ℕ) : List Byte :=
  table.flatMap fun rows => field (rows.getD i [])

theorem le_foldl_max (rows : List (List Byte)) (m : ℕ) :
    m ≤ rows.foldl (fun m r => max m r.length) m ∧
      ∀ r ∈ rows, r.length ≤ rows.foldl (fun m r => max m r.length) m := by
  induction rows generalizing m with
  | nil => exact ⟨le_rfl, fun r hr => nomatch hr⟩
  | cons r rows ih =>
    obtain ⟨hm, hrows⟩ := ih (max m r.length)
    rw [List.forall_mem_cons]
    exact ⟨(le_max_left ..).trans hm, (le_max_right ..).trans hm, hrows⟩

theorem length_le_maxLength {rows : List (List Byte)} {r : List Byte} (h : r ∈ rows) :
    r.length ≤ maxLength rows := (le_foldl_max rows 0).2 r h

theorem getD_length_le (rows : List (List Byte)) (i : ℕ) :
    (rows.getD i []).length ≤ maxLength rows := by
  rw [List.getD_eq_getElem?_getD]
  rcases h : rows[i]? with - | r
  · exact Nat.zero_le _
  · exact length_le_maxLength (List.mem_of_getElem? h)

theorem length_key_le (table : List (List (List Byte))) (i : ℕ) :
    (key table i).length ≤ maxRowSize table := by
  rw [key, List.length_flatMap, maxRowSize]
  refine List.sum_le_sum fun rows _ => ?_
  rw [length_field, Nat.add_comm]
  exact Nat.add_le_add_right (getD_length_le rows i) 4

/-! ## One field -/

section Fields

variable {c : BinaryColumn} {i w : ℕ} {s : Slices}

/-- The two writes of a field. -/
def fieldWrites (i pos : ℕ) (r : List Byte) : List (Write ℕ) :=
  [⟨i, pos, littleEndian 4 r.length⟩, ⟨i, pos + 4, r⟩]

theorem tiles_fieldWrites (i pos : ℕ) (r : List Byte) : Writes.Tiles pos (fieldWrites i pos r) := by
  refine ⟨rfl, ?_, trivial⟩
  rw [Write.stop, length_littleEndian]

theorem text_fieldWrites (i pos : ℕ) (r : List Byte) : Writes.text (fieldWrites i pos r) = field r := by
  simp [Writes.text, fieldWrites, field]

/-- The sizes are `uint32_t`, the positions are not. -/
theorem serializeRow_eq (hc : c.OffsetsOk) (hi : i < c.size) {sliceSize : ℕ}
    (hsize : s.sliceSizes[i]? = some sliceSize) :
    c.serializeRow w i s = some ⟨s.log ++ fieldWrites i (i * w + sliceSize) (c.row i),
      s.sliceSizes.set i ((sliceSize + (field (c.row i)).length) % 4294967296)⟩ := by
  have hserialize : c.serialize i (i * w + sliceSize) =
      some (fieldWrites i (i * w + sliceSize) (c.row i),
        (field (c.row i)).length % 4294967296) := by
    rw [length_field, serialize, if_pos ⟨hi, hc.getSlice_stop_le hi⟩, fieldWrites,
      hc.row_length hi]
    rfl
  simp only [serializeRow, hsize, hserialize, Option.bind_eq_bind, Option.bind_some,
    Nat.add_mod_mod, Option.pure_def]

/-- The writes of the fields of row `i`, the first of them behind `size`
bytes. -/
def rowWrites (i w : ℕ) : ℕ → List (List Byte) → List (Write ℕ)
  | _, [] => []
  | size, r :: fields =>
    fieldWrites i (i * w + size % 4294967296) r ++ rowWrites i w (size + (field r).length) fields

theorem rowWrites_concat (i w size : ℕ) (fields : List (List Byte)) (r : List Byte) :
    rowWrites i w size (fields ++ [r]) = rowWrites i w size fields ++
      fieldWrites i (i * w + (size + (fields.flatMap field).length) % 4294967296) r := by
  induction fields generalizing size with
  | nil =>
    rw [List.nil_append, rowWrites, rowWrites, rowWrites, List.append_nil, List.flatMap_nil]
    rfl
  | cons r' fields ih =>
    rw [List.cons_append, rowWrites, ih, rowWrites, List.append_assoc, List.flatMap_cons,
      List.length_append, Nat.add_assoc]

theorem text_rowWrites (i w size : ℕ) (fields : List (List Byte)) :
    Writes.text (rowWrites i w size fields) = fields.flatMap field := by
  induction fields generalizing size with
  | nil => rfl
  | cons r fields ih =>
    rw [rowWrites, Writes.text_append, text_fieldWrites, ih, List.flatMap_cons]

/-- As long as the size does not wrap around, the writes tile the region. -/
theorem tiles_rowWrites {size : ℕ} {fields : List (List Byte)}
    (h : size + (fields.flatMap field).length < 4294967296) :
    Writes.Tiles (i * w + size) (rowWrites i w size fields) := by
  induction fields generalizing size with
  | nil => trivial
  | cons r fields ih =>
    rw [List.flatMap_cons, List.length_append] at h
    rw [rowWrites, Nat.mod_eq_of_lt (by omega)]
    refine (tiles_fieldWrites ..).append ?_
    rw [text_fieldWrites, Nat.add_assoc]
    exact ih (by omega)

end Fields

/-! ## The two loops -/

/-- **What is logged**: the writes of the fields of every row so far, and
their sizes. -/
structure Logged (w : ℕ) (fields : ℕ → List (List Byte)) (s : Slices) : Prop where
  sizes : ∀ i < 4096, s.sliceSizes[i]? = some (((fields i).flatMap field).length % 4294967296)
  log : ∀ i, Writes.ofOwner i s.log = rowWrites i w 0 (fields i)

namespace Logged

variable {w n : ℕ} {fields : ℕ → List (List Byte)} {s : Slices} {c : BinaryColumn}

theorem init (w : ℕ) : Logged w (fun _ => []) ⟨[], List.replicate 4096 0⟩ where
  sizes _ hi := List.getElem?_replicate_of_lt hi
  log _ := rfl

/-- **One field** more. -/
theorem serializeRow (h : Logged w fields s) (hc : c.OffsetsOk) {i : ℕ} (hi : i < c.size)
    (hn : i < 4096) :
    ∃ s', c.serializeRow w i s = some s' ∧
      Logged w (Function.update fields i (fields i ++ [c.row i])) s' := by
  have howner : ∀ pos, ∀ v ∈ fieldWrites i pos (c.row i), v.owner = i := by
    simp [fieldWrites]
  refine ⟨_, serializeRow_eq hc hi (h.sizes i hn), fun j hj => ?_, fun j => ?_⟩
  all_goals
    rcases eq_or_ne j i with rfl | hne
  · have hlen := List.getElem?_eq_some_iff.1 (h.sizes j hj)
    rw [List.getElem?_set_self hlen.1, Function.update_self, List.flatMap_append,
      List.length_append, List.flatMap_singleton, Nat.mod_add_mod]
  · rw [List.getElem?_set_ne hne.symm, Function.update_of_ne hne]
    exact h.sizes j hj
  · rw [Writes.ofOwner_append_self (howner _), h.log, Function.update_self, rowWrites_concat,
      Nat.zero_add]
  · rw [Writes.ofOwner_append_ne fun v hv => (howner _ v hv).trans_ne hne.symm, h.log,
      Function.update_of_ne hne]

/-- **A column.** -/
theorem serializeBatch (h : Logged w fields s) (hc : c.OffsetsOk) (hsize : n ≤ c.size)
    (hn : n ≤ 4096) :
    ∃ s', c.serializeBatch n w s = some s' ∧
      Logged w (fun i => if i < n then fields i ++ [c.row i] else fields i) s' := by
  induction n with
  | zero => exact ⟨s, rfl, h⟩
  | succ n ih =>
    obtain ⟨s₁, hs₁, h₁⟩ := ih (by omega) (by omega)
    obtain ⟨s₂, hs₂, h₂⟩ := h₁.serializeRow hc (i := n) hsize hn
    refine ⟨s₂, ?_, ?_⟩
    · rw [BinaryColumn.serializeBatch] at hs₁ ⊢
      rw [List.range_succ, List.foldlM_append, hs₁, Option.bind_eq_bind, Option.bind_some,
        List.foldlM_cons, hs₂]
      rfl
    · convert h₂ using 1
      funext i
      rcases eq_or_ne i n with rfl | hne
      · rw [Function.update_self, if_pos (Nat.lt_succ_self i), if_neg (Nat.lt_irrefl i)]
      · rw [Function.update_of_ne hne]
        simp only [show i < n + 1 ↔ i < n by omega]

/-- **All columns.** -/
theorem columns {table : List (List (List Byte))} (h : Logged w fields s) (hn : n ≤ 4096)
    (hrows : ∀ rows ∈ table, rows.length = n ∧ rows.flatten.length < 4294967296) :
    ∃ s', (table.map ofRows).foldlM (fun s c => c.serializeBatch n w s) s = some s' ∧
      Logged w (fun i => if i < n then fields i ++ table.map fun rows => rows.getD i []
        else fields i) s' := by
  induction table generalizing fields s with
  | nil =>
    refine ⟨s, rfl, ?_⟩
    simpa using h
  | cons rows table ih =>
    rw [List.forall_mem_cons] at hrows
    obtain ⟨⟨hlen, hbytes⟩, htable⟩ := hrows
    have hrow : ∀ i < n, (ofRows rows).row i = rows.getD i [] := fun i hi => by
      rw [row_ofRows hbytes (hlen ▸ hi), List.getD_eq_getElem _ _ (hlen ▸ hi)]
    obtain ⟨s₁, hs₁, h₁⟩ := h.serializeBatch (n := n) (offsetsOk_ofRows hbytes)
      (by rw [size_ofRows, hlen]) hn
    obtain ⟨s₂, hs₂, h₂⟩ := ih h₁ htable
    refine ⟨s₂, ?_, ?_⟩
    · rw [List.map_cons, List.foldlM_cons, hs₁]
      exact hs₂
    · convert h₂ using 1
      funext i
      by_cases hi : i < n
      · simp only [if_pos hi, hrow i hi, List.map_cons, List.append_assoc, List.singleton_append]
      · simp only [if_neg hi]

end Logged

/-- **What is laid out**: the writes for a row tile its region from the
start on and hold `keys i`, and the sizes are those of the keys. -/
structure Laid (w : ℕ) (keys : ℕ → List Byte) (s : Slices) : Prop where
  sizes : ∀ i < 4096, s.sliceSizes[i]? = some (keys i).length
  tiles : ∀ i, Writes.Tiles (i * w) (Writes.ofOwner i s.log)
  text : ∀ i, Writes.text (Writes.ofOwner i s.log) = keys i

/-- Where no size wraps around, the fields are laid out. -/
theorem Logged.laid {w : ℕ} {fields : ℕ → List (List Byte)} {s : Slices} (h : Logged w fields s)
    (hlt : ∀ i, ((fields i).flatMap field).length < 4294967296) :
    Laid w (fun i => (fields i).flatMap field) s where
  sizes i hi := by rw [h.sizes i hi, Nat.mod_eq_of_lt (hlt i)]
  tiles i := by
    rw [h.log]
    exact tiles_rowWrites (by rw [Nat.zero_add]; exact hlt i)
  text i := by rw [h.log, text_rowWrites]

/-! ## Sizes -/

section Sizes

variable {rows : List (List Byte)} {table : List (List (List Byte))} {n : ℕ}

theorem flatten_length_le (rows : List (List Byte)) :
    rows.flatten.length ≤ rows.length * maxLength rows := by
  have hmem : ∀ m ∈ rows.map List.length, m ≤ maxLength rows := by
    intro m hm
    obtain ⟨r, hr, rfl⟩ := List.mem_map.1 hm
    exact length_le_maxLength hr
  have hsum := List.sum_le_card_nsmul _ _ hmem
  rwa [List.length_map, Nat.nsmul_eq_mul, ← List.length_flatten] at hsum

theorem getMaxSerializedSize_ofRows (hlen : rows.length ≤ 4096)
    (hbytes : rows.flatten.length < 4294967296) :
    (ofRows rows).getMaxSerializedSize = some ((maxLength rows + 4) % 4294967296) := by
  have hsizes : (List.range rows.length).map (fun i => ((ofRows rows).getSlice i).size) =
      rows.map List.length := by
    refine List.ext_getElem (by simp) fun i _ hi => ?_
    rw [List.length_map] at hi
    rw [List.getElem_map, List.getElem_range, List.getElem_map,
      ← (offsetsOk_ofRows hbytes).row_length (by rw [size_ofRows]; exact hi), row_ofRows hbytes hi]
  have hfold : (List.range rows.length).foldl (fun m i => max m ((ofRows rows).getSlice i).size) 0 =
      maxLength rows := by
    have hmap := congrArg (List.foldl max 0) hsizes
    rwa [List.foldl_map, List.foldl_map] at hmap
  rw [getMaxSerializedSize, size_ofRows, IntLoop.forEach_eq,
    if_pos (by rw [List.length_range]; omega)]
  refine (congrArg (Option.map _) (List.foldlM_pure ..)).trans ?_
  rw [hfold, Option.pure_def, Option.map_some]

/-- A table of which the code sees the sizes as they are. -/
structure Fits (n : ℕ) (table : List (List (List Byte))) : Prop where
  length : ∀ rows ∈ table, rows.length = n
  rows : n ≤ 4096
  size : maxRowSize table * 4096 < 4294967296

theorem maxLength_le_maxRowSize (h : rows ∈ table) : maxLength rows + 4 ≤ maxRowSize table :=
  List.single_le_sum (fun _ _ => Nat.zero_le _) _ (List.mem_map_of_mem h)

theorem Fits.bytes_lt (h : Fits n table) (hrows : rows ∈ table) :
    rows.flatten.length < 4294967296 := by
  have h₁ := flatten_length_le rows
  have h₂ := maxLength_le_maxRowSize hrows
  have h₃ := h.size
  rw [h.length rows hrows] at h₁
  have h₄ : n * maxLength rows ≤ 4096 * maxLength rows := Nat.mul_le_mul_right _ h.rows
  omega

theorem foldlM_getMaxSerializedSize
    (h : ∀ rows ∈ table, rows.length ≤ 4096 ∧ rows.flatten.length < 4294967296) (m : ℕ) :
    (table.map ofRows).foldlM (fun maxSize c => c.getMaxSerializedSize.map fun size =>
      (maxSize + size) % 4294967296) (m % 4294967296) =
        some ((m + maxRowSize table) % 4294967296) := by
  induction table generalizing m with
  | nil => rfl
  | cons rows table ih =>
    rw [List.forall_mem_cons] at h
    rw [List.map_cons, List.foldlM_cons, getMaxSerializedSize_ofRows h.1.1 h.1.2, Option.map_some,
      Option.bind_eq_bind, Option.bind_some, ← Nat.add_mod, ih h.2, maxRowSize_cons,
      Nat.add_assoc m]

theorem getMaxSerializeSize_eq
    (h : ∀ rows ∈ table, rows.length ≤ 4096 ∧ rows.flatten.length < 4294967296) :
    getMaxSerializeSize (table.map ofRows) = some (maxRowSize table % 4294967296) := by
  rw [getMaxSerializeSize, ← Nat.zero_mod 4294967296, foldlM_getMaxSerializedSize h, Nat.zero_add]

end Sizes

/-! ## Regions -/

namespace Vertical

/-- Position `p` is written for row `i`. -/
def WrittenFor (v : Vertical) (i p : ℕ) : Prop := ∃ w ∈ v.log, w.owner = i ∧ w.Covers p

/-- The bytes of row `i` in a buffer that was `fresh`. -/
def slice (v : Vertical) (fresh : ℕ → Byte) (i : ℕ) : List Byte :=
  Writes.slice (Writes.memory v.log fresh) (i * v.maxOneRowSize) (v.sliceSizes.getD i 0)

end Vertical

section Regions

variable {table : List (List (List Byte))} {n : ℕ} {v : Vertical}

/-- **`concat_vertically` has a result**, with the fields of all rows
logged; the size of a region and the room wrap around. -/
theorem concatVertically_logged (hne : table ≠ []) (hn : n ≤ 4096)
    (hrows : ∀ rows ∈ table, rows.length = n ∧ rows.flatten.length < 4294967296) :
    ∃ s, concatVertically (table.map ofRows) = some ⟨s, maxRowSize table % 4294967296,
        4096 * (maxRowSize table % 4294967296) % 4294967296⟩ ∧
      Logged (maxRowSize table % 4294967296)
        (fun i => if i < n then table.map fun rows => rows.getD i [] else []) s := by
  obtain ⟨s, hs, hlogged⟩ := (Logged.init (maxRowSize table % 4294967296)).columns hn hrows
  refine ⟨s, ?_, hlogged⟩
  have hmax := getMaxSerializeSize_eq fun rows hr => ⟨(hrows rows hr).1.trans_le hn, (hrows rows hr).2⟩
  obtain ⟨rows, rest, rfl⟩ := List.exists_cons_of_ne_nil hne
  have hhead : ((rows :: rest).map ofRows).head? = some (ofRows rows) := rfl
  have hsize : (ofRows rows).size = n := (size_ofRows rows).trans (hrows rows (List.mem_cons_self ..)).1
  simp only [concatVertically, hmax, hhead, Option.bind_eq_bind, Option.bind_some, hsize, hs,
    Option.pure_def]

theorem flatMap_field (table : List (List (List Byte))) (i : ℕ) :
    (table.map fun rows => rows.getD i []).flatMap field = key table i := List.flatMap_map ..

/-- With sizes that the code sees as they are, the keys are laid out. -/
theorem concatVertically_eq (hne : table ≠ []) (h : Fits n table) :
    ∃ s, concatVertically (table.map ofRows) =
        some ⟨s, maxRowSize table, 4096 * maxRowSize table⟩ ∧
      Laid (maxRowSize table) (fun i => if i < n then key table i else []) s := by
  have hsize := h.size
  obtain ⟨s, hs, hlogged⟩ := concatVertically_logged hne h.rows
    fun rows hrows => ⟨h.length rows hrows, h.bytes_lt hrows⟩
  have hkey : ∀ i, ((if i < n then table.map fun rows => rows.getD i [] else []).flatMap field) =
      if i < n then key table i else [] := by
    intro i
    split_ifs
    · exact flatMap_field table i
    · rfl
  rw [Nat.mod_eq_of_lt (by omega : maxRowSize table < 4294967296)] at hs hlogged
  rw [Nat.mod_eq_of_lt (by omega : 4096 * maxRowSize table < 4294967296)] at hs
  have hlaid := hlogged.laid fun i => by
    rw [hkey]
    have hle := length_key_le table i
    split_ifs
    · omega
    · exact Nat.zero_lt_succ _
  simp only [hkey] at hlaid
  exact ⟨s, hs, hlaid⟩

/-- A position is in one region only. -/
theorem region_unique {w p : ℕ} {size : ℕ → ℕ} (hsize : ∀ i, size i ≤ w) {i j : ℕ}
    (hi : i * w ≤ p ∧ p < i * w + size i) (hj : j * w ≤ p ∧ p < j * w + size j) : i = j := by
  have hdiv : ∀ {k}, k * w ≤ p ∧ p < k * w + size k → p / w = k := by
    intro k hk
    have hle := hsize k
    refine Nat.div_eq_of_lt_le hk.1 ?_
    rw [Nat.succ_mul]
    omega
  exact (hdiv hi).symm.trans (hdiv hj)

theorem key_eq_iff (h : Fits n table) {i j : ℕ} (hi : i < n) (hj : j < n) :
    key table i = key table j ↔ ∀ rows ∈ table, rows[i]? = rows[j]? := by
  have hsize := h.size
  have hget : ∀ rows ∈ table, ∀ k < n, rows[k]? = some (rows.getD k []) := by
    intro rows hrows k hk
    have hk' : k < rows.length := (h.length rows hrows).symm ▸ hk
    rw [List.getElem?_eq_getElem hk', List.getD_eq_getElem _ _ hk']
  have hshort : ∀ k, ∀ r ∈ table.map (fun rows => rows.getD k []), r.length < 4294967296 := by
    intro k r hr
    obtain ⟨rows, hrows, rfl⟩ := List.mem_map.1 hr
    have h₁ := getD_length_le rows k
    have h₂ := maxLength_le_maxRowSize hrows
    omega
  constructor
  · intro heq rows hrows
    rw [← flatMap_field, ← flatMap_field] at heq
    have hmap := selfDelimiting_field.flatMap_inj (by rw [List.length_map, List.length_map])
      (hshort i) (hshort j) heq
    rw [hget rows hrows i hi, hget rows hrows j hj, List.map_inj_left.1 hmap rows hrows]
  · intro heq
    refine List.flatMap_congr fun rows hrows => congrArg field ?_
    have hrow := heq rows hrows
    rw [hget rows hrows i hi, hget rows hrows j hj] at hrow
    exact Option.some.inj hrow

/-- **Rows in regions.** Each row is written to its own region and no
other, `slice_sizes` holds how many bytes these are, and the bytes of two
rows are the same only if all their fields are. -/
theorem concatVertically_regions (hne : table ≠ []) (hlength : ∀ rows ∈ table, rows.length = n)
    (hn : n ≤ 4096) (hsize : maxRowSize table * 4096 < 2 ^ 32) :
    ∃ v, concatVertically (table.map ofRows) = some v ∧
      v.maxOneRowSize = maxRowSize table ∧ v.room = 4096 * v.maxOneRowSize ∧
      (∀ i p, v.WrittenFor i p →
        i < n ∧ i * v.maxOneRowSize ≤ p ∧ p < (i + 1) * v.maxOneRowSize) ∧
      (∀ i < n, ∃ size, v.sliceSizes[i]? = some size ∧ size ≤ v.maxOneRowSize ∧
        (Writes.text (Writes.ofOwner i v.log)).length = size ∧
        ∀ p, v.WrittenFor i p ↔ i * v.maxOneRowSize ≤ p ∧ p < i * v.maxOneRowSize + size) ∧
      ∀ fresh, ∀ i < n, ∀ j < n,
        v.slice fresh i = v.slice fresh j ↔ ∀ rows ∈ table, rows[i]? = rows[j]? := by
  have hfits : Fits n table := ⟨hlength, hn, hsize⟩
  obtain ⟨s, hs, h⟩ := concatVertically_eq hne hfits
  have hkeys : ∀ i, (if i < n then key table i else []).length ≤ maxRowSize table := by
    intro i
    by_cases hi : i < n
    · rw [if_pos hi]
      exact length_key_le table i
    · rw [if_neg hi]
      exact Nat.zero_le _
  have hcovers : ∀ i p, (∃ w ∈ s.log, w.owner = i ∧ w.Covers p) ↔ i * maxRowSize table ≤ p ∧
      p < i * maxRowSize table + (if i < n then key table i else []).length := by
    intro i p
    rw [← h.text i, ← (h.tiles i).covers_iff]
    simp only [Writes.ofOwner, List.mem_filter, decide_eq_true_eq, and_assoc]
  have hslice : ∀ fresh, ∀ i < n, Vertical.slice ⟨s, maxRowSize table, 4096 * maxRowSize table⟩ fresh i =
      key table i := by
    intro fresh i hi
    have htext := h.text i
    have hsizes := h.sizes i (by omega)
    rw [if_pos hi] at htext hsizes
    rw [Vertical.slice, List.getD_eq_getElem?_getD, hsizes, Option.getD_some, ← htext]
    refine Writes.slice_memory_ofOwner (h.tiles i) fun w hw p hle hlt hc => ?_
    rw [htext] at hlt
    refine region_unique hkeys ((hcovers w.owner p).1 ⟨w, hw, rfl, hc⟩) ⟨hle, ?_⟩
    rwa [if_pos hi]
  refine ⟨_, hs, rfl, rfl, fun i p hp => ?_, fun i hi => ?_, fun fresh i hi j hj => ?_⟩
  · obtain ⟨hle, hlt⟩ := (hcovers i p).1 hp
    have hfit := hkeys i
    have hi : i < n := by
      by_contra hge
      rw [if_neg hge, List.length_nil] at hlt
      omega
    refine ⟨hi, hle, ?_⟩
    rw [Nat.succ_mul]
    exact Nat.lt_of_lt_of_le hlt (Nat.add_le_add_left hfit _)
  · have htext := congrArg List.length (h.text i)
    exact ⟨_, h.sizes i (by omega), hkeys i, htext, hcovers i⟩
  · rw [hslice fresh i hi, hslice fresh j hj]
    exact key_eq_iff hfits hi hj

/-- The witness: the fields `01, 0203` and `0102, 03` run together to the
same bytes, and their lengths tell them apart. -/
theorem concatVertically_regions_twoRows :
    ∃ v, concatVertically ([[[1], [1, 2]], [[2, 3], [3]]].map ofRows) = some v ∧
      ∀ fresh, v.slice fresh 0 ≠ v.slice fresh 1 := by
  obtain ⟨v, hv, -, -, -, -, hslice⟩ :=
    @concatVertically_regions [[[1], [1, 2]], [[2, 3], [3]]] 2 (by decide) (by decide) (by decide)
      (by decide)
  refine ⟨v, hv, fun fresh heq => ?_⟩
  exact absurd ((hslice fresh 0 (by decide) 1 (by decide)).1 heq) (by decide)

end Regions

end Concat

end CppEtudes
