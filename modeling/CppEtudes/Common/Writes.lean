import Mathlib.Data.Nat.Notation
import Mathlib.Tactic.Common

/-!
# Logs of writes

A program that fills a memory is the list of its writes, in their order.
Each write has an owner. Where the writes of an owner tile a range, one
beginning where the one before it ends, and no other owner writes there,
the memory holds their text in that range.
-/

namespace CppEtudes

/-- A copy of `bytes` to `pos`. -/
structure Write (ι : Type) where
  owner : ι
  pos : ℕ
  bytes : List UInt8
  deriving DecidableEq, Repr

namespace Write

variable {ι : Type}

/-- One past the last position. -/
def stop (w : Write ι) : ℕ := w.pos + w.bytes.length

def Covers (w : Write ι) (p : ℕ) : Prop := w.pos ≤ p ∧ p < w.stop

instance (w : Write ι) (p : ℕ) : Decidable (w.Covers p) := inferInstanceAs (Decidable (_ ∧ _))

def apply (w : Write ι) (mem : ℕ → UInt8) (p : ℕ) : UInt8 :=
  if w.Covers p then w.bytes.getD (p - w.pos) 0 else mem p

theorem apply_of_not_covers {w : Write ι} {p : ℕ} (h : ¬ w.Covers p) (mem : ℕ → UInt8) :
    w.apply mem p = mem p := if_neg h

end Write

namespace Writes

variable {ι : Type} {ws log : List (Write ι)} {mem mem' : ℕ → UInt8} {p start : ℕ}

/-- The memory after the writes. -/
def memory (log : List (Write ι)) (mem : ℕ → UInt8) : ℕ → UInt8 :=
  log.foldl (fun mem w => w.apply mem) mem

/-- `len` bytes from `pos` on. -/
def slice (mem : ℕ → UInt8) (pos len : ℕ) : List UInt8 := (List.range len).map fun k => mem (pos + k)

/-- The bytes of the writes, one after the other. -/
def text (ws : List (Write ι)) : List UInt8 := ws.flatMap Write.bytes

/-- **Each write begins where the one before it ends.** -/
def Tiles : ℕ → List (Write ι) → Prop
  | _, [] => True
  | start, w :: ws => w.pos = start ∧ Tiles w.stop ws

/-- The writes of one owner. -/
def ofOwner [DecidableEq ι] (i : ι) (log : List (Write ι)) : List (Write ι) :=
  log.filter fun w => w.owner = i

/-! ## Tilings -/

theorem text_append (ws vs : List (Write ι)) : text (ws ++ vs) = text ws ++ text vs :=
  List.flatMap_append

theorem Tiles.append {vs : List (Write ι)} (h : Tiles start ws)
    (hvs : Tiles (start + (text ws).length) vs) : Tiles start (ws ++ vs) := by
  induction ws generalizing start with
  | nil => exact hvs
  | cons w ws ih =>
    refine ⟨h.1, ih h.2 ?_⟩
    rw [text, List.flatMap_cons, List.length_append, ← Nat.add_assoc] at hvs
    rwa [Write.stop, h.1]

/-- **What a tiling covers.** -/
theorem Tiles.covers_iff (h : Tiles start ws) :
    (∃ w ∈ ws, w.Covers p) ↔ start ≤ p ∧ p < start + (text ws).length := by
  induction ws generalizing start with
  | nil =>
    constructor
    · rintro ⟨w, hw, -⟩
      exact nomatch hw
    · intro hp
      exact absurd hp.2 (Nat.not_lt.2 hp.1)
  | cons v ws ih =>
    obtain ⟨rfl, htail⟩ := h
    have hlen : (text (v :: ws)).length = v.bytes.length + (text ws).length := by
      rw [text, List.flatMap_cons, List.length_append, ← text]
    simp only [List.mem_cons, exists_eq_or_imp, ih htail, hlen]
    rw [Write.Covers, Write.stop]
    omega

/-! ## Owners -/

theorem ofOwner_append_self [DecidableEq ι] {i : ι} (h : ∀ w ∈ ws, w.owner = i) :
    ofOwner i (log ++ ws) = ofOwner i log ++ ws := by
  rw [ofOwner, List.filter_append, List.filter_eq_self.2 fun w hw => decide_eq_true (h w hw)]
  rfl

theorem ofOwner_append_ne [DecidableEq ι] {i : ι} (h : ∀ w ∈ ws, w.owner ≠ i) :
    ofOwner i (log ++ ws) = ofOwner i log := by
  have hnil : ws.filter (fun w => w.owner = i) = [] :=
    List.filter_eq_nil_iff.2 fun w hw ht => h w hw (of_decide_eq_true ht)
  rw [ofOwner, List.filter_append, hnil, List.append_nil]
  rfl

/-! ## Memory -/

theorem slice_add (mem : ℕ → UInt8) (pos a b : ℕ) :
    slice mem pos (a + b) = slice mem pos a ++ slice mem (pos + a) b := by
  simp only [slice, List.range_add, List.map_append, List.map_map, Function.comp_def,
    Nat.add_assoc]

theorem slice_congr {pos len : ℕ} (h : ∀ p, pos ≤ p → p < pos + len → mem p = mem' p) :
    slice mem pos len = slice mem' pos len :=
  List.map_congr_left fun k hk => h (pos + k) (Nat.le_add_right ..)
    (Nat.add_lt_add_left (List.mem_range.1 hk) pos)

theorem slice_apply (w : Write ι) (mem : ℕ → UInt8) :
    slice (w.apply mem) w.pos w.bytes.length = w.bytes := by
  refine List.ext_getElem (by simp [slice]) fun k _ hk => ?_
  have hcovers : w.Covers (w.pos + k) := ⟨Nat.le_add_right .., Nat.add_lt_add_left hk w.pos⟩
  simp [slice, Write.apply, hcovers, hk]

theorem memory_congr (h : mem p = mem' p) : memory log mem p = memory log mem' p := by
  induction log generalizing mem mem' with
  | nil => exact h
  | cons w log ih =>
    refine ih ?_
    simp only [Write.apply, h]

theorem memory_of_not_covered (h : ∀ w ∈ log, ¬ w.Covers p) : memory log mem p = mem p := by
  induction log generalizing mem with
  | nil => rfl
  | cons w log ih =>
    rw [List.forall_mem_cons] at h
    exact (ih h.2).trans (Write.apply_of_not_covers h.1 mem)

/-- A write elsewhere does not matter. -/
theorem memory_filter {q : Write ι → Bool} (h : ∀ w ∈ log, w.Covers p → q w = true) :
    memory log mem p = memory (log.filter q) mem p := by
  induction log generalizing mem with
  | nil => rfl
  | cons w log ih =>
    rw [List.forall_mem_cons] at h
    rcases hq : q w with - | -
    · have hw : ¬ w.Covers p := fun hc => Bool.false_ne_true (hq.symm.trans (h.1 hc))
      rw [List.filter_cons_of_neg (by rw [hq]; exact Bool.false_ne_true), ← ih h.2]
      exact memory_congr (Write.apply_of_not_covers hw mem)
    · rw [List.filter_cons_of_pos hq]
      exact ih h.2

/-- **A tiling is read back.** -/
theorem Tiles.slice_memory (h : Tiles start ws) :
    slice (memory ws mem) start (text ws).length = text ws := by
  induction ws generalizing start mem with
  | nil => rfl
  | cons w ws ih =>
    obtain ⟨rfl, htail⟩ := h
    have hhead : slice (memory (w :: ws) mem) w.pos w.bytes.length = w.bytes := by
      -- the later writes begin behind `w`
      refine (slice_congr fun p _ hp => ?_).trans (slice_apply w mem)
      refine (memory_of_not_covered fun v hv hc => ?_ : memory ws (w.apply mem) p = _)
      have hle := (htail.covers_iff.1 ⟨v, hv, hc⟩).1
      exact absurd hp (Nat.not_lt.2 hle)
    rw [text, List.flatMap_cons, List.length_append, slice_add, hhead]
    exact congrArg (w.bytes ++ ·) (ih htail)

/-- **The text of an owner** is in the memory, if no other owner writes
there. -/
theorem slice_memory_ofOwner [DecidableEq ι] {i : ι} (h : Tiles start (ofOwner i log))
    (hothers : ∀ w ∈ log, ∀ p, start ≤ p → p < start + (text (ofOwner i log)).length →
      w.Covers p → w.owner = i) :
    slice (memory log mem) start (text (ofOwner i log)).length = text (ofOwner i log) := by
  have hown : slice (memory (ofOwner i log) mem) start (text (ofOwner i log)).length =
      text (ofOwner i log) := h.slice_memory
  refine (slice_congr fun p hle hlt => ?_).trans hown
  exact memory_filter fun w hw hc => decide_eq_true (hothers w hw p hle hlt hc)

end Writes

end CppEtudes
