import CppEtudes.Concat.Vertical

/-!
# The room for vertical concatenation

The room is `4096` regions, computed in 32 bits, while the position of a
region is computed in 64. The writes of a row end where its fields do, so
that all are inside the room exactly if every row ends in it
(`rowWrites_below_iff`); a row of `2^32` bytes or more never does, and
before that no size wraps around.
-/

namespace CppEtudes

namespace Concat

open StringFunctions BinaryColumn

variable {table : List (List (List Byte))} {i w n room : ℕ}

/-- The size of row `i`: its fields, and four bytes for each. -/
def rowSize (table : List (List (List Byte))) (i : ℕ) : ℕ :=
  (table.map fun rows => (rows.getD i []).length + 4).sum

theorem length_flatMap_field (table : List (List (List Byte))) (i : ℕ) :
    ((table.map fun rows => rows.getD i []).flatMap field).length = rowSize table i := by
  rw [flatMap_field, key, List.length_flatMap, rowSize]
  refine congrArg List.sum (List.map_congr_left fun rows _ => ?_)
  rw [length_field, Nat.add_comm]

theorem rowSize_le (table : List (List (List Byte))) (i : ℕ) :
    rowSize table i ≤ maxRowSize table := by
  rw [← length_flatMap_field, flatMap_field]
  exact length_key_le table i

/-! ## Rows inside the room -/

theorem fieldWrites_below_iff {pos : ℕ} {r : List Byte} :
    (∀ v ∈ fieldWrites i pos r, ∀ p, v.Covers p → p < room) ↔ pos + (field r).length ≤ room := by
  have hcovers := fun p => (tiles_fieldWrites i pos r).covers_iff (p := p)
  simp only [text_fieldWrites] at hcovers
  have hpos : 0 < (field r).length := by
    rw [length_field]
    omega
  constructor
  · intro h
    obtain ⟨v, hv, hlast⟩ := (hcovers (pos + (field r).length - 1)).2 ⟨by omega, by omega⟩
    have := h v hv _ hlast
    omega
  · intro h v hv p hp
    have := (hcovers p).1 ⟨v, hv, hp⟩
    omega

/-- **The writes of a row are inside the room exactly if its end is.** -/
theorem rowWrites_below_iff (hroom : room < 4294967296) {size : ℕ} (hsize : size < 4294967296)
    {fields : List (List Byte)} :
    (∀ v ∈ rowWrites i w size fields, ∀ p, v.Covers p → p < room) ↔
      fields = [] ∨ i * w + size + (fields.flatMap field).length ≤ room := by
  induction fields generalizing size with
  | nil => simp [rowWrites]
  | cons r fields ih =>
    rw [rowWrites, List.forall_mem_append, fieldWrites_below_iff, Nat.mod_eq_of_lt hsize,
      List.flatMap_cons, List.length_append]
    simp only [reduceCtorEq, false_or]
    constructor
    · rintro ⟨hfirst, hrest⟩
      rcases (ih (by omega)).1 hrest with rfl | hrest
      · rw [List.flatMap_nil, List.length_nil]
        omega
      · omega
    · intro h
      exact ⟨by omega, (ih (by omega)).2 (Or.inr (by omega))⟩

/-- All writes, by the rows. -/
theorem Logged.below_iff {s : Slices} (hroom : room < 4294967296) (hne : table ≠ [])
    (h : Logged w (fun i => if i < n then table.map fun rows => rows.getD i [] else []) s) :
    (∀ v ∈ s.log, ∀ p, v.Covers p → p < room) ↔ ∀ i < n, i * w + rowSize table i ≤ room := by
  have hrow : ∀ i, (∀ v ∈ Writes.ofOwner i s.log, ∀ p, v.Covers p → p < room) ↔
      (i < n → i * w + rowSize table i ≤ room) := by
    intro i
    rw [h.log]
    by_cases hi : i < n
    · rw [if_pos hi, rowWrites_below_iff hroom (by omega), List.map_eq_nil_iff,
        or_iff_right hne, length_flatMap_field, Nat.add_zero, forall_prop_of_true hi]
    · rw [if_neg hi]
      simp [rowWrites, hi]
  constructor
  · intro hall i
    refine (hrow i).1 fun v hv => hall v ?_
    exact List.mem_of_mem_filter hv
  · intro hall v hv
    refine (hrow v.owner).2 (hall v.owner) v ?_
    exact List.mem_filter.2 ⟨hv, decide_eq_true rfl⟩

/-- A product that does not wrap around leaves room for all rows. -/
theorem le_room_of_lt (hn : n ≤ 4096) (h : maxRowSize table < 1048576) (hi : i < n) :
    i * (maxRowSize table % 4294967296) + rowSize table i ≤
      4096 * maxRowSize table % 4294967296 := by
  have hle := rowSize_le table i
  rw [Nat.mod_eq_of_lt (by omega), Nat.mod_eq_of_lt (by omega)]
  have hmul : (i + 1) * maxRowSize table ≤ 4096 * maxRowSize table :=
    Nat.mul_le_mul_right _ (by omega)
  rw [Nat.succ_mul] at hmul
  omega

/-- **Inside the room.** Every position that is written is below the size
of the buffer exactly if `4096` regions are less than `2^32` bytes, or
the rows end inside of what is left of them modulo `2^32`. -/
theorem concatVertically_below_room_iff (hne : table ≠ [])
    (hlength : ∀ rows ∈ table, rows.length = n) (hn : n ≤ 4096)
    (hbytes : ∀ rows ∈ table, rows.flatten.length < 2 ^ 32) :
    (∃ v, concatVertically (table.map ofRows) = some v ∧
      ∀ i p, v.WrittenFor i p → p < v.room) ↔
    maxRowSize table < 2 ^ 20 ∨ ∀ i < n, i * (maxRowSize table % 2 ^ 32) + rowSize table i ≤
      4096 * maxRowSize table % 2 ^ 32 := by
  obtain ⟨s, hs, hlogged⟩ := concatVertically_logged hne hn
    fun rows hrows => ⟨hlength rows hrows, hbytes rows hrows⟩
  have hbelow := hlogged.below_iff (Nat.mod_lt (4096 * maxRowSize table) (by omega)) hne
  rw [Nat.mul_mod_mod] at hs
  have hwritten : (∃ v, concatVertically (table.map ofRows) = some v ∧
      ∀ i p, v.WrittenFor i p → p < v.room) ↔
      ∀ v ∈ s.log, ∀ p, v.Covers p → p < 4096 * maxRowSize table % 4294967296 := by
    simp only [hs, Option.some.injEq, exists_eq_left']
    constructor
    · intro h v hv p hp
      exact h v.owner p ⟨v, hv, rfl, hp⟩
    · rintro h i p ⟨v, hv, -, hp⟩
      exact h v hv p hp
  rw [hwritten, hbelow]
  constructor
  · exact Or.inr
  · rintro (h | h)
    · exact fun i hi => le_room_of_lt hn h hi
    · exact h

theorem concatVertically_below_room_iff_twoRows :
    ∃ v, concatVertically ([[[1], [1, 2]], [[2, 3], [3]]].map ofRows) = some v ∧
      ∀ i p, v.WrittenFor i p → p < v.room :=
  (concatVertically_below_room_iff (n := 2) (by decide) (by decide) (by decide) (by decide)).2
    (Or.inl (by decide))

/-- A row whose region is `2^20` bytes has no room at all. -/
theorem writtenFor_of_length {r : List Byte} (h : r.length = 1048572) :
    ∃ v, concatVertically ([[r]].map ofRows) = some v ∧ v.room = 0 ∧ v.WrittenFor 0 0 := by
  have hmax : maxRowSize [[r]] = 1048576 := by
    rw [maxRowSize_cons, maxLength, List.foldl_cons, List.foldl_nil, h]
    rfl
  obtain ⟨s, hs, hlogged⟩ := concatVertically_logged (n := 1) (List.cons_ne_nil [r] []) (by decide)
    fun rows hrows => by
      rw [List.mem_singleton.1 hrows]
      exact ⟨rfl, by rw [List.flatten_singleton, h]; decide⟩
  refine ⟨_, hs, by rw [hmax], ?_⟩
  have hfirst : ⟨0, 0, littleEndian 4 r.length⟩ ∈ Writes.ofOwner 0 s.log := by
    rw [hlogged.log, if_pos Nat.zero_lt_one, List.map_singleton, rowWrites, Nat.zero_mul]
    exact List.mem_cons_self
  refine ⟨_, List.mem_of_mem_filter hfirst, rfl, le_rfl, ?_⟩
  rw [Write.stop, length_littleEndian]
  omega

/-- **One row of `2^20 - 4` bytes**: the room wraps around to nothing, and
the length of the row is written all the same. -/
theorem concatVertically_outside_room :
    ∃ v, concatVertically ([[List.replicate 1048572 0]].map ofRows) = some v ∧ v.room = 0 ∧
      v.WrittenFor 0 0 := writtenFor_of_length List.length_replicate

end Concat

end CppEtudes
