import Mathlib.Data.Nat.Notation
import Mathlib.Tactic.Common

/-!
# A source and a result in memory

Two objects, a text that is only read and a result that is written. A
cell of the result that was not written yet has no content, and reading
it has no result, nor has any access outside of an object or a copy
between ranges that overlap. A result is filled from its beginning on
(`written`) or from its end down (`filled`).
-/

namespace CppEtudes

/-- The source string and the memory for the result. -/
structure Heap where
  text : List UInt8
  result : List (Option UInt8)
  deriving DecidableEq

/-- A pointer into one of the two. -/
inductive Ptr
  | text (offset : ℕ)
  | result (offset : ℕ)

namespace Heap

def load (h : Heap) (size : ℕ) : Ptr → Option (List UInt8)
  | .text offset =>
    if offset + size ≤ h.text.length then some ((h.text.drop offset).take size) else none
  | .result offset =>
    if offset + size ≤ h.result.length then ((h.result.drop offset).take size).mapM id else none

def store (h : Heap) (dst : ℕ) (bytes : List UInt8) : Option Heap :=
  if dst + bytes.length ≤ h.result.length then
    some ⟨h.text, h.result.take dst ++ bytes.map some ++ h.result.drop (dst + bytes.length)⟩
  else none

end Heap

/-- Ranges that have no position in common. -/
def Ptr.Apart (dst size : ℕ) : Ptr → Prop
  | .text _ => True
  | .result offset => offset + size ≤ dst ∨ dst + size ≤ offset

instance (dst size : ℕ) : (p : Ptr) → Decidable (p.Apart dst size)
  | .text _ => inferInstanceAs (Decidable True)
  | .result _ => inferInstanceAs (Decidable (_ ∨ _))

def Ptr.add (n : ℕ) : Ptr → Ptr
  | .text offset => .text (offset + n)
  | .result offset => .result (offset + n)

/-- A copy of `size` bytes to `dst`. -/
def Heap.copy (h : Heap) (dst : ℕ) (src : Ptr) (size : ℕ) : Option Heap :=
  if src.Apart dst size then do
    let bytes ← h.load size src
    h.store dst bytes
  else none

variable {text bytes new : List UInt8} {rest : List (Option UInt8)} {src : Ptr}

/-! ## Slices -/

/-- The bytes stand in a list at some offset. -/
def SliceAt (l : List UInt8) (offset : ℕ) (new : List UInt8) : Prop :=
  ∃ pre post, l = pre ++ new ++ post ∧ pre.length = offset

namespace SliceAt

variable {l : List UInt8} {offset : ℕ}

theorem le_length (h : SliceAt l offset new) : offset + new.length ≤ l.length := by
  obtain ⟨pre, post, rfl, rfl⟩ := h
  simp only [List.length_append]
  omega

theorem take_drop (h : SliceAt l offset new) : (l.drop offset).take new.length = new := by
  obtain ⟨pre, post, rfl, rfl⟩ := h
  rw [List.append_assoc, List.drop_left, List.take_left]

theorem append (h : SliceAt l offset new) (more : List UInt8) : SliceAt (l ++ more) offset new := by
  obtain ⟨pre, post, rfl, rfl⟩ := h
  exact ⟨pre, post ++ more, by rw [List.append_assoc _ post], rfl⟩

theorem left {new' : List UInt8} (h : SliceAt l offset (new ++ new')) : SliceAt l offset new := by
  obtain ⟨pre, post, rfl, rfl⟩ := h
  exact ⟨pre, new' ++ post, by simp only [List.append_assoc], rfl⟩

theorem right {new' : List UInt8} (h : SliceAt l offset (new ++ new')) :
    SliceAt l (offset + new.length) new' := by
  obtain ⟨pre, post, rfl, rfl⟩ := h
  exact ⟨pre ++ new, post, by simp only [List.append_assoc], List.length_append⟩

end SliceAt

/-- What the pointer points to, in the text or in what is written. -/
def Ptr.Holds (text bytes new : List UInt8) : Ptr → Prop
  | .text offset => SliceAt text offset new
  | .result offset => SliceAt bytes offset new

namespace Ptr.Holds

theorem append (h : src.Holds text bytes new) (more : List UInt8) :
    src.Holds text (bytes ++ more) new := by
  cases src with
  | text offset => exact h
  | result offset => exact SliceAt.append h more

theorem left {new' : List UInt8} (h : src.Holds text bytes (new ++ new')) :
    src.Holds text bytes new := by
  cases src with
  | text offset => exact SliceAt.left h
  | result offset => exact SliceAt.left h

theorem right {new' : List UInt8} (h : src.Holds text bytes (new ++ new')) :
    (src.add new.length).Holds text bytes new' := by
  cases src with
  | text offset => exact SliceAt.right h
  | result offset => exact SliceAt.right h

end Ptr.Holds

namespace Heap

/-! ## Filling from the beginning -/

/-- Memory with some bytes written from the start on. -/
def written (text bytes : List UInt8) (rest : List (Option UInt8)) : Heap :=
  ⟨text, bytes.map some ++ rest⟩

theorem mapM_id_map_some (bytes : List UInt8) : (bytes.map some).mapM id = some bytes := by
  induction bytes with
  | nil => rfl
  | cons b bytes ih => rw [List.map_cons, List.mapM_cons, ih]; rfl

theorem load_text {h : Heap} {offset : ℕ} (hslice : SliceAt h.text offset new) :
    h.load new.length (.text offset) = some new := by
  rw [load, if_pos hslice.le_length, hslice.take_drop]

theorem load_written (h : src.Holds text bytes new) :
    (written text bytes rest).load new.length src = some new := by
  cases src with
  | text offset => exact load_text h
  | result offset =>
    have hle := SliceAt.le_length h
    have hslice : ((bytes.map some ++ rest).drop offset).take new.length = new.map some := by
      rw [List.drop_append_of_le_length (by rw [List.length_map]; omega),
        List.take_append_of_le_length (by rw [List.length_drop, List.length_map]; omega),
        ← List.map_drop, ← List.map_take, SliceAt.take_drop h]
    rw [load, written, if_pos (by rw [List.length_append, List.length_map]; omega), hslice,
      mapM_id_map_some]

theorem store_written (h : new.length ≤ rest.length) :
    (written text bytes rest).store bytes.length new =
      some (written text (bytes ++ new) (rest.drop new.length)) := by
  have hlen : (bytes.map some).length = bytes.length := List.length_map _
  rw [store, written, if_pos (by rw [List.length_append, hlen]; omega), ← hlen, List.take_left,
    ← List.drop_drop, List.drop_left, written, List.map_append]

/-- **A copy appends** what it finds at its source. -/
theorem copy_written (h : src.Holds text bytes new) (hroom : new.length ≤ rest.length) :
    (written text bytes rest).copy bytes.length src new.length =
      some (written text (bytes ++ new) (rest.drop new.length)) := by
  have hapart : src.Apart bytes.length new.length := by
    cases src with
    | text offset => trivial
    | result offset => exact Or.inl (SliceAt.le_length h)
  rw [copy, if_pos hapart, load_written h, Option.bind_eq_bind, Option.bind_some,
    store_written hroom]

/-! ## Filling from the end -/

variable {room beyond : List (Option UInt8)} {k : ℕ}

/-- Memory with some bytes written between the room that is left and what
is not touched. -/
def filled (text : List UInt8) (room : List (Option UInt8)) (bytes : List UInt8)
    (beyond : List (Option UInt8)) : Heap :=
  ⟨text, room ++ (bytes.map some ++ beyond)⟩

theorem store_filled (h : room.length = k + new.length) :
    (filled text room bytes beyond).store k new =
      some (filled text (room.take k) (new ++ bytes) beyond) := by
  rw [store, filled, if_pos (by rw [List.length_append]; omega), ← h, List.drop_left,
    List.take_append_of_le_length (by omega), filled, List.map_append]
  simp only [List.append_assoc]

end Heap

end CppEtudes
