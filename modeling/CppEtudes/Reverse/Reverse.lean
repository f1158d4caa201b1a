import CppEtudes.Common.Blocks
import CppEtudes.Reverse.Model.Reverse
import CppEtudes.StringFunctions.Utf8

/-!
# What is reversed

A register whose lanes are shuffled by descending indexes is reversed,
and blocks that are reversed and stored downwards reverse the whole
(`reverseBlocks_filled`). Over valid characters the loop of
`utf8_reverse_per_slice` copies them one by one below each other
(`foldlM_charCopies`). It stays inside of both objects exactly if no
character announces more bytes than are left.
-/

namespace CppEtudes

namespace Reverse

open StringFunctions Heap

variable {text bytes new : List Byte} {room beyond : List (Option Byte)}

/-! ## Registers -/

theorem map_getD_range (bytes : List Byte) :
    (List.range bytes.length).map (fun i => bytes.getD i 0) = bytes := by
  refine List.ext_getElem (by simp) fun i hi hi' => ?_
  simp [hi']

/-- **Descending control bytes reverse a register.** -/
theorem shuffle_descending {lanes : ℕ} (hlanes : lanes ≤ 128) (hlen : bytes.length = lanes) :
    shuffle lanes ((List.range lanes).reverse.map UInt8.ofNat) bytes = bytes.reverse := by
  have hlane : ∀ i ∈ List.range lanes, (if 128 ≤ (UInt8.ofNat i).toNat then 0
      else bytes.getD ((UInt8.ofNat i).toNat % lanes) 0) = bytes.getD i 0 := by
    intro i hi
    rw [List.mem_range] at hi
    rw [UInt8.toNat_ofNat', Nat.mod_eq_of_lt (by omega), if_neg (by omega), Nat.mod_eq_of_lt hi]
  rw [shuffle, List.map_map, List.map_reverse]
  refine congrArg List.reverse (Eq.trans (List.map_congr_left hlane) ?_)
  rw [← hlen, map_getD_range]

theorem shuffle_ctrlMasks8 (h : bytes.length = 8) : shuffle 8 ctrlMasks8 bytes = bytes.reverse :=
  shuffle_descending (by omega) h

theorem shuffle_ctrlMasks16 (h : bytes.length = 16) :
    shuffle 16 ctrlMasks16 bytes = bytes.reverse :=
  shuffle_descending (by omega) h

/-- **Blocks reversed and stored downwards** reverse the whole. -/
theorem reverseBlocks_filled (beyond : List (Option Byte)) {lanes : ℕ} {f : List Byte → List Byte}
    (hf : ∀ bytes, bytes.length = lanes → f bytes = bytes.reverse) (blocks : ℕ) :
    ∀ (bytes : List Byte) {new : List Byte} (room : List (Option Byte)) {p : ℕ},
    new.length = blocks * lanes → SliceAt text p new → new.length ≤ room.length →
    reverseBlocks lanes f blocks (filled text room bytes beyond) p room.length =
      some (filled text (room.take (room.length - new.length)) (new.reverse ++ bytes) beyond) := by
  induction blocks with
  | zero =>
    intro bytes new room p hlen _ _
    obtain rfl : new = [] := List.length_eq_zero_iff.1 (by omega)
    rw [reverseBlocks, List.length_nil, Nat.sub_zero, List.take_length, List.reverse_nil,
      List.nil_append]
  | succ blocks ih =>
    intro bytes new room p hlen hslice hroom
    rw [Nat.succ_mul] at hlen
    obtain ⟨block, new', rfl, rfl⟩ := Blocks.exists_append (by omega : lanes ≤ new.length)
    have hrev : (f block).length = block.length := by rw [hf block rfl, List.length_reverse]
    rw [List.length_append] at hlen hroom
    have hroom' : (room.take (room.length - block.length)).length = room.length - block.length := by
      rw [List.length_take]
      omega
    have hload : (filled text room bytes beyond).load block.length (.text p) = some block :=
      load_text hslice.left
    have hstore : (filled text room bytes beyond).store (room.length - block.length) (f block) =
        some (filled text (room.take (room.length - block.length)) (block.reverse ++ bytes)
          beyond) := by
      rw [store_filled (by rw [hrev]; omega), hf block rfl]
    have hrest := ih (block.reverse ++ bytes) (room.take (room.length - block.length)) (by omega)
      hslice.right (by omega)
    rw [hroom', List.take_take, Nat.min_eq_left (by omega), Nat.sub_sub] at hrest
    rw [reverseBlocks, if_pos (by omega), hload, Option.bind_eq_bind, Option.bind_some, hstore,
      Option.bind_eq_bind, Option.bind_some, hrest, List.reverse_append, List.append_assoc,
      List.length_append]

/-- Registers and the single bytes behind them. -/
theorem reverseRegisters_eq {lanes : ℕ} {ctrl : List Byte}
    (hshuffle : ∀ bytes, bytes.length = lanes → shuffle lanes ctrl bytes = bytes.reverse)
    (hroom : room.length = text.length) :
    reverseRegisters lanes ctrl ⟨text, room ++ beyond⟩ =
      some ⟨text, text.reverse.map some ++ beyond⟩ := by
  obtain ⟨whole, tail, htext, hwhole, htail⟩ := Blocks.exists_whole_append text lanes
  have hlen : text.length = whole.length + tail.length := by rw [htext, List.length_append]
  have hslice : SliceAt text 0 (whole ++ tail) := ⟨[], [], by simp [htext], rfl⟩
  have hroom' : (room.take (room.length - whole.length)).length = text.length - whole.length := by
    rw [List.length_take]
    omega
  have hone : ∀ bytes : List Byte, bytes.length = 1 → id bytes = bytes.reverse := by
    intro bytes h
    obtain ⟨b, rfl⟩ := List.length_eq_one_iff.1 h
    rfl
  have hfirst := reverseBlocks_filled beyond hshuffle _ [] room hwhole hslice.left (by omega)
  have hrest := reverseBlocks_filled beyond hone _ (whole.reverse ++ [])
    (room.take (room.length - whole.length)) (htail.trans (Nat.mul_one _).symm) hslice.right
    (by omega)
  have hleft : text.length - whole.length - tail.length = 0 := by omega
  rw [hroom] at hfirst
  rw [hroom', hleft, List.take_zero, List.append_nil, ← List.reverse_append, ← htext,
    Nat.zero_add, hroom, hwhole] at hrest
  rw [hwhole, List.append_nil] at hfirst
  have hstart : (⟨text, room ++ beyond⟩ : Heap) = filled text room [] beyond := rfl
  rw [reverseRegisters, hstart]
  dsimp only [filled] at hfirst hrest ⊢
  rw [hfirst, Option.bind_eq_bind, Option.bind_some, hrest, List.nil_append]

/-! ## Characters -/

theorem getElem?_append_cons (pre : List Byte) (b : Byte) (xs : List Byte) :
    (pre ++ b :: xs)[pre.length]? = some b := by
  rw [List.getElem?_append_right (Nat.le_refl _), Nat.sub_self, List.getElem?_cons_zero]

/-- **One character below the other.** `pre` is what was copied already. -/
theorem foldlM_charCopies (beyond : List (Option Byte)) (cs : List (List Byte)) :
    ∀ (fuel : ℕ) (pre bytes : List Byte) (room : List (Option Byte)),
    (∀ c ∈ cs, IsUtf8Char c) → cs.length ≤ fuel → room.length = cs.flatten.length →
    (charCopies (pre ++ cs.flatten) fuel pre.length room.length).foldlM CharCopy.run
        (filled (pre ++ cs.flatten) room bytes beyond) =
      some (filled (pre ++ cs.flatten) [] (cs.reverse.flatten ++ bytes) beyond) := by
  induction cs with
  | nil =>
    intro fuel pre bytes room _ _ hroom
    obtain rfl : room = [] := List.length_eq_zero_iff.1 hroom
    have hend : charCopies (pre ++ [].flatten) fuel pre.length ([] : List (Option Byte)).length =
        [] := by
      cases fuel with
      | zero => rfl
      | succ fuel =>
        rw [charCopies, List.flatten_nil, List.append_nil, List.getElem?_eq_none (Nat.le_refl _)]
    rw [hend]
    rfl
  | cons c cs ih =>
    intro fuel pre bytes room hcs hfuel hroom
    rw [List.forall_mem_cons] at hcs
    obtain ⟨fuel, rfl⟩ : ∃ k, fuel = k + 1 := ⟨fuel - 1, by rw [List.length_cons] at hfuel; omega⟩
    rw [List.length_cons] at hfuel
    obtain ⟨b, t, hc, hlead⟩ := tableSize_isChar hcs.1
    have hsize : tableSize b = c.length := Option.some.inj hlead
    have hfirst : (pre ++ (c :: cs).flatten)[pre.length]? = some b := by
      rw [List.flatten_cons, hc, List.cons_append, getElem?_append_cons]
    rw [List.flatten_cons, List.length_append] at hroom
    have hdst : (room.length : ℤ) - c.length = cs.flatten.length := by omega
    have htext : pre ++ (c :: cs).flatten = pre ++ c ++ cs.flatten := by
      rw [List.flatten_cons, List.append_assoc]
    have hload : (filled (pre ++ (c :: cs).flatten) room bytes beyond).load c.length
        (.text pre.length) = some c :=
      load_text ⟨pre, cs.flatten, htext, rfl⟩
    have hroom' : (room.take cs.flatten.length).length = cs.flatten.length := by
      rw [List.length_take]
      omega
    have hrun : CharCopy.run (filled (pre ++ (c :: cs).flatten) room bytes beyond)
        ⟨pre.length, cs.flatten.length, c.length⟩ =
        some (filled (pre ++ (c :: cs).flatten) (room.take cs.flatten.length) (c ++ bytes)
          beyond) := by
      rw [CharCopy.run, if_pos (by dsimp only; omega), hload, Option.bind_eq_bind,
        Option.bind_some, Int.toNat_natCast, store_filled (by omega)]
    have hrest := ih fuel (pre ++ c) (c ++ bytes) (room.take cs.flatten.length) hcs.2 (by omega)
      hroom'
    rw [hroom', List.length_append, ← htext] at hrest
    rw [charCopies, hfirst]
    dsimp only
    rw [hsize, hdst, List.foldlM_cons, hrun, Option.bind_eq_bind, Option.bind_some, hrest,
      List.reverse_cons, List.flatten_append, List.flatten_singleton, List.append_assoc]

/-- **Characters in reverse order.** -/
theorem utf8ReversePerSlice_flatten (beyond : List (Option Byte)) {cs : List (List Byte)}
    (hcs : ∀ c ∈ cs, IsUtf8Char c) (hroom : room.length = cs.flatten.length) :
    utf8ReversePerSlice ⟨cs.flatten, room ++ beyond⟩ =
      some ⟨cs.flatten, cs.reverse.flatten.map some ++ beyond⟩ := by
  have hrun := foldlM_charCopies beyond cs _ [] [] room hcs (length_le_length_flatten hcs) hroom
  rw [List.nil_append, hroom, List.append_nil] at hrun
  exact hrun

/-- A text of valid characters, whatever makes them valid. -/
def IsValidText (valid : List Byte → Prop) (s : List Byte) : Prop :=
  ∃ cs : List (List Byte), s = cs.flatten ∧ ∀ c ∈ cs, valid c

/-- **Both functions reverse**: `ascii_reverse` the bytes, with either
register, and `utf8_reverse_per_slice` the characters of a valid text,
with the bytes of each in their order. The result is a valid text, and
its reverse is the first one again. -/
theorem reverses :
    (∀ (isEpi8 : Bool) (s : List Byte) (dst : List (Option Byte)), s.length ≤ dst.length →
      asciiReverse isEpi8 ⟨s, dst⟩ = some ⟨s, s.reverse.map some ++ dst.drop s.length⟩) ∧
    ∀ valid : List Byte → Prop, (∀ c, valid c → IsUtf8Char c) →
      ∀ cs : List (List Byte), (∀ c ∈ cs, valid c) →
      ∀ dst : List (Option Byte), cs.flatten.length ≤ dst.length →
        utf8ReversePerSlice ⟨cs.flatten, dst⟩ =
          some ⟨cs.flatten, cs.reverse.flatten.map some ++ dst.drop cs.flatten.length⟩ ∧
        IsValidText valid cs.reverse.flatten ∧
        utf8ReversePerSlice ⟨cs.reverse.flatten, dst⟩ =
          some ⟨cs.reverse.flatten, cs.flatten.map some ++ dst.drop cs.flatten.length⟩ := by
  refine ⟨fun isEpi8 s dst hdst => ?_, fun valid hvalid cs hcs dst hdst => ?_⟩
  · obtain ⟨room, beyond, rfl, hlen⟩ := Blocks.exists_append hdst
    rw [asciiReverse, List.drop_left' hlen]
    cases isEpi8
    · exact reverseRegisters_eq (fun _ => shuffle_ctrlMasks16) hlen
    · exact reverseRegisters_eq (fun _ => shuffle_ctrlMasks8) hlen
  · obtain ⟨room, beyond, rfl, hlen⟩ := Blocks.exists_append hdst
    have hreverse : ∀ c ∈ cs.reverse, valid c := fun c hc => hcs c (List.mem_reverse.1 hc)
    have hlen' : room.length = cs.reverse.flatten.length := by
      rw [hlen, List.length_flatten, List.length_flatten, List.map_reverse, List.sum_reverse]
    have hback := utf8ReversePerSlice_flatten beyond (fun c hc => hvalid c (hreverse c hc)) hlen'
    rw [List.reverse_reverse] at hback
    rw [List.drop_left' hlen]
    exact ⟨utf8ReversePerSlice_flatten _ (fun c hc => hvalid c (hcs c hc)) hlen,
      ⟨cs.reverse, rfl, hreverse⟩, hback⟩

/-- An accented letter and a plain one. -/
theorem reverses_twoChars :
    asciiReverse true ⟨[97, 98], [none, none]⟩ = some ⟨[97, 98], [some 98, some 97]⟩ ∧
    utf8ReversePerSlice ⟨[0xC3, 0xA9, 97], [none, none, none]⟩ =
      some ⟨[0xC3, 0xA9, 97], [some 97, some 0xC3, some 0xA9]⟩ :=
  ⟨reverses.1 true [97, 98] [none, none] (by decide),
    (reverses.2 IsUtf8Char (fun _ h => h) [[0xC3, 0xA9], [97]]
      (List.forall_mem_cons.2 ⟨by decide, List.forall_mem_singleton.2 (by decide)⟩)
      [none, none, none] (by decide)).1⟩

/-! ## Bounds -/

/-- The copy reads and writes positions below `size` only. -/
def CharCopy.InBounds (size : ℕ) (c : CharCopy) : Prop :=
  c.src + c.size ≤ size ∧ 0 ≤ c.dst ∧ c.dst + c.size ≤ size

instance (size : ℕ) (c : CharCopy) : Decidable (c.InBounds size) :=
  inferInstanceAs (Decidable (_ ∧ _))

theorem charCopies_inBounds_iff (fuel : ℕ) : ∀ pre s : List Byte,
    (∀ c ∈ charCopies (pre ++ s) fuel pre.length s.length, c.InBounds (pre ++ s).length) ↔
      Scan.Fits (fun b => some (tableSize b)) 0 fuel s := by
  induction fuel with
  | zero => intro pre s; simp [charCopies]
  | succ fuel ih =>
    intro pre s
    cases s with
    | nil => simp [charCopies]
    | cons b xs =>
      have hhead : CharCopy.InBounds (pre ++ b :: xs).length
          ⟨pre.length, ((b :: xs).length : ℤ) - tableSize b, tableSize b⟩ ↔
            tableSize b ≤ (b :: xs).length := by
        rw [CharCopy.InBounds, List.length_append]
        dsimp only
        omega
      rw [charCopies, getElem?_append_cons]
      dsimp only
      rw [List.forall_mem_cons, hhead, Scan.Fits]
      simp only [Option.some.injEq, exists_eq_left', Nat.add_zero]
      refine and_congr_right fun hle => ?_
      have hrest := ih (pre ++ (b :: xs).take (tableSize b)) ((b :: xs).drop (tableSize b))
      rw [List.append_assoc, List.take_append_drop, List.length_append, List.length_take,
        List.length_drop, Nat.min_eq_left hle, Nat.cast_sub hle] at hrest
      exact hrest

/-- **The copies of `utf8_reverse_per_slice` stay inside of both objects
exactly if no character announces more bytes than are left.** -/
theorem reverseCopies_inBounds_iff (s : List Byte) :
    (∀ c ∈ reverseCopies s, c.InBounds s.length) ↔
      Scan.Fits (fun b => some (tableSize b)) 0 s.length s :=
  charCopies_inBounds_iff s.length [] s

/-- Two bytes from a source of one, to the byte before the destination. -/
theorem reverseCopies_truncated :
    reverseCopies [0xC3] = [⟨0, -1, 2⟩] ∧
      ¬ ∀ c ∈ reverseCopies [0xC3], c.InBounds ([0xC3] : List Byte).length := by
  decide

end Reverse

end CppEtudes
