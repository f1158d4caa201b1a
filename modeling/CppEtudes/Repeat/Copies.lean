import CppEtudes.Common.Blocks
import CppEtudes.Repeat.Model.Repeat

/-!
# Copies of a string

A copy that reads what is written already, and writes behind it, appends
to what is there; `memcpy` and the copies by registers all do
(`Appends`). The rounds of the doubling loop append copies of the string
to copies of the string, so that there are `c` of them all along
(`rounds_copyRound`), and in the end as many as were asked for.
-/

namespace CppEtudes

namespace Repeat

open Machine StringFunctions Heap

variable {text bytes new : List Byte} {rest : List (Option Byte)} {src : Ptr} {copy : Copy}

/-! ## Appending copies -/

/-- **The copy appends** what it finds at its source, if that is written
and there is room. -/
def Appends (copy : Copy) : Prop :=
  ∀ {text bytes new : List Byte} {rest : List (Option Byte)} {src : Ptr},
    src.Holds text bytes new → new.length ≤ rest.length →
    copy (written text bytes rest) bytes.length src new.length =
      some (written text (bytes ++ new) (rest.drop new.length))

theorem appends_memcpy : Appends memcpy := fun h hroom => copy_written h hroom

theorem memcpyInlined_eq : memcpyInlined = memcpy := by
  funext h dst src size
  unfold memcpyInlined
  split <;> rfl

/-- Block by block. -/
theorem copyBlocks_written (lanes : ℕ) (blocks : ℕ) :
    ∀ {bytes new : List Byte} {rest : List (Option Byte)} {src : Ptr},
    new.length = blocks * lanes → src.Holds text bytes new → new.length ≤ rest.length →
    copyBlocks lanes blocks (written text bytes rest) bytes.length src =
      some (written text (bytes ++ new) (rest.drop new.length)) := by
  induction blocks with
  | zero =>
    intro bytes new rest src hlen _ _
    obtain rfl : new = [] := List.length_eq_zero_iff.1 (by omega)
    rw [copyBlocks, List.append_nil, List.length_nil, List.drop_zero]
  | succ blocks ih =>
    intro bytes new rest src hlen h hroom
    rw [Nat.succ_mul] at hlen
    -- the first block, and the others behind it
    obtain ⟨block, new', rfl, rfl⟩ := Blocks.exists_append (by omega : lanes ≤ new.length)
    rw [List.length_append] at hlen hroom ⊢
    rw [copyBlocks, load_written h.left, Option.bind_eq_bind, Option.bind_some,
      store_written (by omega), Option.bind_eq_bind, Option.bind_some, ← List.length_append,
      ih (by omega) (h.right.append block) (by rw [List.length_drop]; omega), List.append_assoc,
      List.drop_drop]

/-- Registers first, and the rest by any copy that appends. -/
theorem appends_copyRegisters (hcopy : Appends copy) : Appends (copyRegisters copy) := by
  intro text bytes new rest src h hroom
  obtain ⟨whole, tail, rfl, hwhole, htail⟩ := Blocks.exists_whole_append new 16
  rw [List.length_append] at hroom
  rw [copyRegisters, ← htail, ← hwhole,
    copyBlocks_written 16 _ (by omega) h.left (by omega), Option.bind_eq_bind, Option.bind_some,
    ← List.length_append, hcopy (h.right.append whole) (by rw [List.length_drop]; omega),
    List.append_assoc, List.drop_drop, List.length_append]

/-! ## Doubling -/

/-- So many copies of the string. -/
def copies (s : List Byte) (c : ℕ) : List Byte := (List.replicate c s).flatten

theorem copies_add (s : List Byte) (c d : ℕ) : copies s (c + d) = copies s c ++ copies s d := by
  rw [copies, List.replicate_add, List.flatten_append, copies, copies]

theorem copies_one (s : List Byte) : copies s 1 = s := by
  rw [copies, List.replicate_one, List.flatten_singleton]

theorem length_copies (s : List Byte) (c : ℕ) : (copies s c).length = s.length * c := by
  rw [copies, List.length_flatten, List.map_replicate, List.sum_replicate_nat, Nat.mul_comm]

variable {s : List Byte} {room : List (Option Byte)} {c d n : ℕ}

/-- Memory with so many copies at its beginning. -/
def repeated (text s : List Byte) (room : List (Option Byte)) (c : ℕ) : Heap :=
  written text (copies s c) (room.drop (s.length * c))

/-- The beginning is appended. -/
theorem Appends.beginning (hcopy : Appends copy) (text : List Byte) (hd : d ≤ c)
    (hroom : s.length * (c + d) ≤ room.length) :
    copy (repeated text s room c) (s.length * c) (.result 0) (s.length * d) =
      some (repeated text s room (c + d)) := by
  have hslice : Ptr.Holds text (copies s c) (copies s d) (.result 0) := by
    refine ⟨[], copies s (c - d), ?_, rfl⟩
    rw [List.nil_append, ← copies_add, Nat.add_sub_cancel' hd]
  have hfits : (copies s d).length ≤ (room.drop (s.length * c)).length := by
    rw [Nat.mul_add] at hroom
    rw [length_copies, List.length_drop]
    omega
  have happend := hcopy hslice hfits
  rw [length_copies, length_copies] at happend
  rw [repeated, happend, repeated, copies_add, Nat.mul_add, List.drop_drop]

/-- The string itself is appended. -/
theorem Appends.string (hcopy : Appends copy) (hs : SliceAt text 0 s)
    (hroom : s.length * (c + 1) ≤ room.length) :
    copy (repeated text s room c) (s.length * c) (.text 0) s.length =
      some (repeated text s room (c + 1)) := by
  have hslice : Ptr.Holds text (copies s c) s (.text 0) := hs
  have hfits : s.length ≤ (room.drop (s.length * c)).length := by
    rw [Nat.mul_succ] at hroom
    rw [List.length_drop]
    omega
  have happend := hcopy hslice hfits
  rw [length_copies] at happend
  rw [repeated, happend, repeated, copies_add, copies_one, Nat.mul_succ, List.drop_drop]

/-- The invariant of the doubling loops. -/
def Repeated (text s : List Byte) (room : List (Option Byte)) (c : ℕ) (x : Heap × ℕ) : Prop :=
  x = (repeated text s room c, s.length * c)

/-- **A round** appends the beginning once or twice. -/
theorem rounds_copyRound {len : ℕ → Option ℕ} (text : List Byte) (hcopy : Appends copy)
    (hn : n < 2147483648) (hroom : s.length * n ≤ room.length)
    (hlen : ∀ x ≤ s.length * n, len x = some x) :
    Doubling.Rounds (copyRound copy s.length len) n (Repeated text s room) := by
  rintro k lastBit c - hbit hk hk' hle rfl
  have hpos : 0 < 2 ^ k := Nat.two_pow_pos k
  have hround : 2 ^ k * 1 ≤ 2 ^ k * (1 + lastBit) := Nat.mul_le_mul_left _ (by omega)
  have hsize : ∀ {m}, m ≤ n → s.length * m ≤ s.length * n := fun h => Nat.mul_le_mul_left _ h
  have hfirst := hcopy.beginning text hk (Nat.le_trans (hsize (by omega)) hroom)
  rw [copyRound, intShl_of_lt (by omega), Option.bind_eq_bind, Option.bind_some,
    hlen _ (hsize (by omega)), Option.bind_eq_bind, Option.bind_some]
  dsimp only
  rw [hfirst, Option.bind_some, ← Nat.mul_add]
  rcases Nat.eq_zero_or_pos lastBit with rfl | hone
  · exact ⟨_, rfl, by rw [Nat.add_zero, Nat.mul_one]; rfl⟩
  · obtain rfl : lastBit = 1 := by omega
    have hsecond := hcopy.beginning text (Nat.le_trans hk (Nat.le_add_right c (2 ^ k)))
      (Nat.le_trans (hsize (by omega)) hroom)
    rw [if_pos (by omega), hsecond, Option.bind_some, ← Nat.mul_add]
    have htwice : c + 2 ^ k + 2 ^ k = c + 2 ^ k * (1 + 1) := by omega
    exact ⟨_, rfl, by rw [htwice]; rfl⟩

/-- **Any copy that appends repeats the string.** -/
theorem repeatStringLognWith_eq (hcopy : Appends copy) (hn : 1 ≤ n) (hint : n < 2147483648)
    (hsize : s.length * n < 2147483648) : repeatStringLognWith copy s n = some (copies s n) := by
  have hlen : (List.replicate (s.length * n) (none : Option Byte)).length = s.length * n :=
    List.length_replicate
  have hone : s.length * 1 ≤ s.length * n := Nat.mul_le_mul_left _ hn
  have hstart := hcopy.string (c := 0) (⟨[], [], by simp, rfl⟩ : SliceAt s 0 s) (hlen.symm ▸ hone)
  obtain ⟨-, hrun, rfl⟩ := Doubling.run_spec
    (rounds_copyRound s hcopy hint (Nat.le_of_eq hlen.symm)
      fun x hx => int32Size_of_lt (by omega)) hn (rfl : Repeated _ _ _ 1 (_, s.length * 1))
  rw [Nat.mul_one] at hrun
  have hempty : repeated s s (List.replicate (s.length * n) none) 0 =
      ⟨s, List.replicate (s.length * n) none⟩ := rfl
  rw [hempty, Nat.mul_zero, Nat.zero_add] at hstart
  rw [repeatStringLognWith, hstart, Option.bind_eq_bind, Option.bind_some, hrun,
    Option.bind_eq_bind, Option.bind_some]
  dsimp only
  rw [repeated, written, List.drop_eq_nil_of_le (Nat.le_of_eq hlen), List.append_nil,
    mapM_id_map_some]

/-! ## Pointers -/

/-- The zero byte behind the copies. -/
theorem store_repeated (hroom : s.length * c < room.length) :
    (repeated text s room c).store (s.length * c) [0] =
      some (written text (copies s c ++ [0]) (room.drop (s.length * c + 1))) := by
  rw [repeated, ← length_copies,
    store_written (by rw [List.length_drop, length_copies, List.length_singleton]; omega),
    List.drop_drop, List.length_singleton]

theorem decrement_eq {size : ℕ} (h : 1 ≤ size) (h' : size < 18446744073709551616) :
    decrement size = size - 1 := by
  unfold decrement
  omega

/-- One copy after the other. -/
theorem originalRepeat_eq {size : ℕ} (hsize : decrement size = s.length) (hs : SliceAt text 0 s)
    (hroom : s.length * n < room.length) :
    originalRepeat ⟨text, room⟩ size n =
      some (written text (copies s n ++ [0]) (room.drop (s.length * n + 1))) := by
  have hloop : ∀ c ≤ n, (List.range c).foldlM (fun (x : Heap × ℕ) _ => do
      let h ← memcpy x.1 x.2 (.text 0) (decrement size)
      return (h, x.2 + decrement size)) (⟨text, room⟩, 0) =
        some (repeated text s room c, s.length * c) := by
    intro c hc
    induction c with
    | zero => rfl
    | succ c ih =>
      have hle : s.length * (c + 1) ≤ s.length * n := Nat.mul_le_mul_left _ hc
      rw [List.range_succ, List.foldlM_append, ih (by omega), Option.bind_eq_bind,
        Option.bind_some, List.foldlM_cons, hsize]
      dsimp only
      rw [appends_memcpy.string hs (by omega)]
      rfl
  rw [originalRepeat, hloop n (Nat.le_refl n), Option.bind_eq_bind, Option.bind_some]
  exact store_repeated hroom

/-- The copies by doubling. -/
theorem fastRepeatBytes_eq {size : ℕ} (hsize : decrement size = s.length) (hs : SliceAt text 0 s)
    (hn : n < 2147483648) (hroom : s.length * n < room.length)
    (hspace : room.length < 18446744073709551616) :
    fastRepeatBytes ⟨text, room⟩ size n =
      some (written text (copies s n ++ [0]) (room.drop (s.length * n + 1))) := by
  rw [fastRepeatBytes]
  rcases Nat.eq_zero_or_pos n with rfl | hpos
  · rw [if_pos rfl]
    exact store_repeated hroom
  have hfirst : s.length * (0 + 1) ≤ room.length := by
    have hone : s.length * 1 ≤ s.length * n := Nat.mul_le_mul_left _ hpos
    omega
  obtain ⟨-, hrun, rfl⟩ := Doubling.run_spec
    (rounds_copyRound text appends_memcpy hn (Nat.le_of_lt hroom)
      fun x hx => congrArg some (Nat.mod_eq_of_lt (by omega : x < 18446744073709551616)))
    hpos (rfl : Repeated _ _ _ 1 (_, s.length * 1))
  have hstart := appends_memcpy.string (c := 0) hs hfirst
  rw [Nat.mul_one] at hrun
  rw [Nat.mul_zero, Nat.zero_add] at hstart
  have hempty : repeated text s room 0 = ⟨text, room⟩ := rfl
  rw [if_neg (by omega), hsize]
  dsimp only
  rw [← hempty, hstart, Option.bind_eq_bind, Option.bind_some, hrun, Option.bind_eq_bind,
    Option.bind_some]
  exact store_repeated hroom

/-! ## Counting -/

theorem countN_eq (hn : 1 ≤ n) (hint : n < 2147483648) : countN n = some n := by
  have hrounds : Doubling.Rounds (fun k lastBit m => do
      let x ← intShl (k + lastBit)
      intAdd m x) n fun c m => m = c := by
    rintro k lastBit c m hbit hk hk' hle rfl
    have hpow : 2 ^ (k + lastBit) = 2 ^ k * (1 + lastBit) := by
      rcases Nat.eq_zero_or_pos lastBit with rfl | hone
      · rw [Nat.add_zero, Nat.add_zero, Nat.mul_one]
      · obtain rfl : lastBit = 1 := by omega
        exact Nat.pow_succ _ _
    refine ⟨_, ?_, rfl⟩
    dsimp only
    rw [intShl_of_lt (by omega), Option.bind_eq_bind, Option.bind_some, intAdd, hpow,
      if_pos (by omega)]
  obtain ⟨m, hrun, hm⟩ := Doubling.run_spec hrounds hn rfl
  rw [← hm] at hrun ⊢
  exact hrun

/-! ## The three together -/

/-- **Every one of them repeats as often as it should.** The strings are
`n` copies of `s`, put together without a read of what was not written.
With room for them in the address space, the pointer version leaves the
memory that `original_repeat` leaves: the copies of the `size - 1` bytes,
and a zero byte behind them. And counting `n` ends at `n`. -/
theorem repeats_exactly :
    (∀ (s : List Byte) (n : ℕ), 1 ≤ n → n < 2147483648 → s.length * n < 2147483648 →
      repeatStringLognMemcpy s n = some (copies s n) ∧
      repeatStringLognGutilMemcpyInline s n = some (copies s n) ∧
      repeatStringLognSimdMemcpyInline1 s n = some (copies s n) ∧
      repeatStringLognSimdMemcpyInline2 s n = some (copies s n)) ∧
    (∀ (h : Heap) (size repeatTime : ℕ), 1 ≤ size → size < 18446744073709551616 →
      repeatTime < 2147483648 → size - 1 ≤ h.text.length →
      (size - 1) * repeatTime < h.result.length → h.result.length < 18446744073709551616 →
      fastRepeatBytes h size repeatTime = originalRepeat h size repeatTime ∧
      originalRepeat h size repeatTime =
        some (written h.text (copies (h.text.take (size - 1)) repeatTime ++ [0])
          (h.result.drop ((size - 1) * repeatTime + 1)))) ∧
    ∀ n : ℕ, 1 ≤ n → n < 2147483648 → countN n = some n := by
  refine ⟨fun s n hn hint hsize => ?_,
    fun h size repeatTime hpos hword hint htext hroom hspace => ?_,
    fun n hn hint => countN_eq hn hint⟩
  · have hinlined : Appends memcpyInlined := memcpyInlined_eq ▸ appends_memcpy
    exact ⟨repeatStringLognWith_eq appends_memcpy hn hint hsize,
      repeatStringLognWith_eq hinlined hn hint hsize,
      repeatStringLognWith_eq (appends_copyRegisters hinlined) hn hint hsize,
      repeatStringLognWith_eq (appends_copyRegisters appends_memcpy) hn hint hsize⟩
  · have hlen : (h.text.take (size - 1)).length = size - 1 := by
      rw [List.length_take]
      omega
    have hslice : SliceAt h.text 0 (h.text.take (size - 1)) :=
      ⟨[], h.text.drop (size - 1), (List.take_append_drop _ _).symm, rfl⟩
    have hdecrement : decrement size = (h.text.take (size - 1)).length := by
      rw [decrement_eq hpos hword, hlen]
    rw [← hlen] at hroom
    have horiginal := originalRepeat_eq hdecrement hslice hroom
    have hfast := fastRepeatBytes_eq hdecrement hslice hint hroom hspace
    rw [hlen] at horiginal hfast
    exact ⟨hfast.trans horiginal.symm, horiginal⟩

/-- Five times two letters, through a room of eleven bytes. -/
theorem repeats_exactly_five :
    repeatStringLognMemcpy [97, 98] 5 = some [97, 98, 97, 98, 97, 98, 97, 98, 97, 98] ∧
    fastRepeatBytes ⟨[97, 98, 0], List.replicate 11 none⟩ 3 5 =
      originalRepeat ⟨[97, 98, 0], List.replicate 11 none⟩ 3 5 ∧
    countN 5 = some 5 :=
  ⟨(repeats_exactly.1 [97, 98] 5 (by decide) (by decide) (by decide)).1,
    (repeats_exactly.2.1 ⟨[97, 98, 0], List.replicate 11 none⟩ 3 5 (by decide) (by decide)
      (by decide) (by decide) (by decide) (by decide)).1,
    repeats_exactly.2.2 5 (by decide) (by decide)⟩

/-! ## Behind the zeros of `resize` -/

theorem repeatStringN_eq (s : List Byte) (n : ℕ) : repeatStringN s n = copies s n := by
  induction n with
  | zero => rfl
  | succ n ih =>
    rw [repeatStringN] at ih ⊢
    rw [List.range_succ, List.foldl_append, ih, copies_add, copies_one]
    rfl

/-- What is inserted is of the zeros at the beginning. -/
theorem insertBeginning_zeros {size len : ℕ} (h : len ≤ size) (tail : List Byte) (z : ℕ) :
    insertBeginning (List.replicate size 0 ++ tail ++ List.replicate z 0) len =
      some (List.replicate size 0 ++ tail ++ List.replicate (z + len) 0) := by
  have htake : (List.replicate size (0 : Byte) ++ tail ++ List.replicate z 0).take len =
      List.replicate len 0 := by
    rw [List.append_assoc, List.take_append_of_le_length (by rw [List.length_replicate]; exact h),
      List.take_replicate, Nat.min_eq_left h]
  rw [insertBeginning, if_pos (by simp only [List.length_append, List.length_replicate]; omega),
    htake, List.append_assoc _ (List.replicate z 0), ← List.replicate_add]

/-- The zeros behind the string, after `c` copies. -/
theorem rounds_insertRound (hint : n < 2147483648) (hsize : s.length * n < 2147483648) :
    Doubling.Rounds (insertRound s.length) n fun c result =>
      result = List.replicate (s.length * n) 0 ++ s ++
        List.replicate (s.length * (c - 1)) 0 := by
  rintro k lastBit c - hbit hk hk' hle rfl
  have hpos : 0 < 2 ^ k := Nat.two_pow_pos k
  have hround : 2 ^ k * 1 ≤ 2 ^ k * (1 + lastBit) := Nat.mul_le_mul_left _ (by omega)
  have hlen : s.length * 2 ^ k ≤ s.length * n := Nat.mul_le_mul_left _ (by omega)
  have hnext : ∀ {d}, 1 ≤ d →
      s.length * (d - 1) + s.length * 2 ^ k = s.length * (d + 2 ^ k - 1) := by
    intro d hd
    rw [← Nat.mul_add, ← Nat.sub_add_comm hd]
  rw [insertRound, intShl_of_lt (by omega), Option.bind_eq_bind, Option.bind_some,
    int32Size_of_lt (by omega), Option.bind_eq_bind, Option.bind_some, insertBeginning_zeros hlen,
    Option.bind_some, hnext (by omega)]
  dsimp only
  rcases Nat.eq_zero_or_pos lastBit with rfl | hone
  · exact ⟨_, rfl, by rw [Nat.add_zero, Nat.mul_one]⟩
  · obtain rfl : lastBit = 1 := by omega
    have htwice : c + 2 ^ k + 2 ^ k = c + 2 ^ k * (1 + 1) := by omega
    exact ⟨_, by rw [if_pos (by omega), insertBeginning_zeros hlen], by
      rw [hnext (by omega), htwice]⟩

/-- `repeat_string_logn` has the string once, between the zeros of
`resize` and copies of them. -/
theorem repeatStringLogn_eq (hn : 1 ≤ n) (hint : n < 2147483648)
    (hsize : s.length * n < 2147483648) :
    repeatStringLogn s n = some (List.replicate (s.length * n) 0 ++ s ++
      List.replicate (s.length * (n - 1)) 0) := by
  have hstart : List.replicate (s.length * n) 0 ++ s = List.replicate (s.length * n) 0 ++ s ++
      List.replicate (s.length * (1 - 1)) 0 := by
    rw [Nat.sub_self, Nat.mul_zero, List.replicate_zero, List.append_nil]
  obtain ⟨-, hrun, rfl⟩ := Doubling.run_spec (rounds_insertRound hint hsize) hn hstart
  exact hrun

/-- **It equals `repeat_string_n` for the empty string only**: the copies
are inserted behind the zeros that `resize` wrote, and are copies of
them. -/
theorem repeatStringLogn_iff (hn : 1 ≤ n) (hint : n < 2147483648)
    (hsize : s.length * n < 2147483648) :
    repeatStringLogn s n = some (repeatStringN s n) ↔ s = [] := by
  rw [repeatStringLogn_eq hn hint hsize, repeatStringN_eq, Option.some.injEq]
  constructor
  · intro heq
    have hlen := congrArg List.length heq
    simp only [List.length_append, List.length_replicate, length_copies] at hlen
    exact List.length_eq_zero_iff.1 (by omega)
  · rintro rfl
    refine List.eq_nil_of_length_eq_zero ?_ |>.trans (List.eq_nil_of_length_eq_zero ?_).symm
    · simp only [List.length_append, List.length_replicate, List.length_nil, Nat.zero_mul]
    · rw [length_copies, List.length_nil, Nat.zero_mul]

/-- Two empty strings, and a letter twice. -/
theorem repeatStringLogn_iff_empty : repeatStringLogn [] 2 = some (repeatStringN [] 2) ∧
    repeatStringLogn [97] 2 ≠ some (repeatStringN [97] 2) := by
  refine ⟨(repeatStringLogn_iff (by decide) (by decide) (by decide)).2 rfl, fun h => ?_⟩
  exact absurd ((repeatStringLogn_iff (by decide) (by decide) (by decide)).1 h) (by decide)

/-- A letter once is not the letter. -/
theorem repeatStringLogn_letter :
    repeatStringLogn [97] 1 = some [0, 97] ∧ repeatStringN [97] 1 = [97] := by
  decide

end Repeat

end CppEtudes
