import CppEtudes.Common.Scan
import CppEtudes.StringFunctions.Column
import CppEtudes.StringFunctions.Model.Substr
import Mathlib.Data.Nat.Bitwise

/-!
# The decoders, and the scans they drive

Both decoders announce the length of every valid character
(`charSize_isChar`), which is where they agree; the loops of
`skip_leading_utf8`, `skip_trailing_utf8` and `get_utf8_small_index` are
the forward and backward scans of `Common.Scan` over a row, and
`validate_ascii_fast` is the check of every byte.
-/

namespace CppEtudes

namespace StringFunctions

open Machine

/-- A property checked at every value of a byte. -/
theorem forall_byte {P : Byte → Prop} (h : ∀ n, n < 256 → P (UInt8.ofNat n)) (b : Byte) : P b := by
  have := h b.toNat b.toNat_lt
  rwa [UInt8.ofNat_toNat] at this

/-! ## Valid characters -/

/-- A continuation byte, `80`–`BF`. -/
def IsTailByte (b : Byte) : Prop := 0x80 ≤ b.toNat ∧ b.toNat ≤ 0xBF

/-- The first byte of a character of the given length. -/
def IsLeadByte (b : Byte) : ℕ → Prop
  | 1 => b.toNat ≤ 0x7F
  | 2 => 0xC0 ≤ b.toNat ∧ b.toNat ≤ 0xDF
  | 3 => 0xE0 ≤ b.toNat ∧ b.toNat ≤ 0xEF
  | 4 => 0xF0 ≤ b.toNat ∧ b.toNat ≤ 0xF7
  | _ => False

/-- **A valid character**: a first byte and exactly as many continuation
bytes as its length asks for. -/
def IsUtf8Char : List Byte → Prop
  | [] => False
  | b :: t => IsLeadByte b (t.length + 1) ∧ ∀ x ∈ t, IsTailByte x

instance (b : Byte) : Decidable (IsTailByte b) := inferInstanceAs (Decidable (_ ∧ _))

instance (b : Byte) : (n : ℕ) → Decidable (IsLeadByte b n)
  | 1 => inferInstanceAs (Decidable (_ ≤ _))
  | 2 | 3 | 4 => inferInstanceAs (Decidable (_ ∧ _))
  | 0 | _ + 5 => inferInstanceAs (Decidable False)

-- along the list, not over all bytes
instance : (c : List Byte) → Decidable (IsUtf8Char c)
  | [] => inferInstanceAs (Decidable False)
  | b :: t => @instDecidableAnd (IsLeadByte b (t.length + 1)) (∀ x ∈ t, IsTailByte x) _
    (List.decidableBAll _ t)

theorem IsUtf8Char.exists_lead {c : List Byte} (h : IsUtf8Char c) :
    ∃ b t, c = b :: t ∧ IsLeadByte b c.length ∧ ∀ x ∈ t, IsTailByte x := by
  cases c with
  | nil => exact h.elim
  | cons b t => exact ⟨b, t, rfl, h⟩

theorem tableSize_eq (b : Byte) : tableSize b =
    if b.toNat < 0xC0 then 1 else if b.toNat < 0xE0 then 2 else if b.toNat < 0xF0 then 3
    else if b.toNat < 0xF8 then 4 else 1 := by
  have hb : b.toNat < 256 := b.toNat_lt
  simp only [tableSize, utf8ByteLengthTable, List.getD_eq_getElem?_getD, List.getElem?_append,
    List.getElem?_replicate, List.length_append, List.length_replicate]
  split_ifs <;> first | rfl | omega

/-- The other decoder counts leading ones, up to seven of them, and has
no answer for eight. -/
theorem charSize_false_eq (b : Byte) : charSize false b =
    if b.toNat < 0xC0 then some 1 else if b.toNat < 0xE0 then some 2
    else if b.toNat < 0xF0 then some 3 else if b.toNat < 0xF8 then some 4
    else if b.toNat < 0xFC then some 5 else if b.toNat < 0xFE then some 6
    else if b.toNat < 0xFF then some 7 else none := by
  revert b
  exact forall_byte (by decide +kernel)

theorem tableSize_pos (b : Byte) : 0 < tableSize b := by
  rw [tableSize_eq]
  split_ifs <;> omega

theorem tableSize_le (b : Byte) : tableSize b ≤ 4 := by
  rw [tableSize_eq]
  split_ifs <;> omega

/-- A first byte announces its character's length to either decoder. -/
theorem charSize_of_isLeadByte (lookupTable : Bool) {b : Byte} {n : ℕ} (h : IsLeadByte b n) :
    charSize lookupTable b = some n := by
  have htrue : charSize true b = some (tableSize b) := rfl
  match n, h with
  | 1, (h : b.toNat ≤ 0x7F) =>
    have hone : b.toNat < 0xC0 := by omega
    cases lookupTable
    · rw [charSize_false_eq, if_pos hone]
    · rw [htrue, tableSize_eq, if_pos hone]
  | 2, ⟨hlow, hhigh⟩ =>
    have hone : ¬ b.toNat < 0xC0 := by omega
    have htwo : b.toNat < 0xE0 := by omega
    cases lookupTable
    · rw [charSize_false_eq, if_neg hone, if_pos htwo]
    · rw [htrue, tableSize_eq, if_neg hone, if_pos htwo]
  | 3, ⟨hlow, hhigh⟩ =>
    have hone : ¬ b.toNat < 0xC0 := by omega
    have htwo : ¬ b.toNat < 0xE0 := by omega
    have hthree : b.toNat < 0xF0 := by omega
    cases lookupTable
    · rw [charSize_false_eq, if_neg hone, if_neg htwo, if_pos hthree]
    · rw [htrue, tableSize_eq, if_neg hone, if_neg htwo, if_pos hthree]
  | 4, ⟨hlow, hhigh⟩ =>
    have hone : ¬ b.toNat < 0xC0 := by omega
    have htwo : ¬ b.toNat < 0xE0 := by omega
    have hthree : ¬ b.toNat < 0xF0 := by omega
    have hfour : b.toNat < 0xF8 := by omega
    cases lookupTable
    · rw [charSize_false_eq, if_neg hone, if_neg htwo, if_neg hthree, if_pos hfour]
    · rw [htrue, tableSize_eq, if_neg hone, if_neg htwo, if_neg hthree, if_pos hfour]

/-- **The decoders agree on valid characters.** -/
theorem charSize_isChar (lookupTable : Bool) {c : List Byte} (h : IsUtf8Char c) :
    Scan.IsChar (charSize lookupTable) c := by
  obtain ⟨b, t, rfl, hlead, -⟩ := h.exists_lead
  exact ⟨b, t, rfl, charSize_of_isLeadByte lookupTable hlead⟩

theorem tableSize_isChar {c : List Byte} (h : IsUtf8Char c) :
    Scan.IsChar (fun b => some (tableSize b)) c :=
  charSize_isChar true h

theorem isContinuation_of_isTailByte {b : Byte} (h : IsTailByte b) : isContinuation b = true := by
  simp only [isContinuation, Bool.and_eq_true, decide_eq_true_eq]
  exact h

theorem not_isContinuation_of_isLeadByte {b : Byte} {n : ℕ} (h : IsLeadByte b n) :
    isContinuation b = false := by
  simp only [isContinuation, Bool.and_eq_false_iff, decide_eq_false_iff_not]
  match n, h with
  | 1, h | 2, h | 3, h | 4, h =>
    simp only [IsLeadByte] at h
    omega

/-- A valid character has one first byte. -/
theorem IsUtf8Char.countP {c : List Byte} (h : IsUtf8Char c) :
    c.countP (fun b => !isContinuation b) = 1 := by
  obtain ⟨b, t, rfl, hlead, htail⟩ := h.exists_lead
  have ht : t.countP (fun b => !isContinuation b) = 0 := by
    rw [List.countP_eq_zero]
    intro x hx
    simp [isContinuation_of_isTailByte (htail x hx)]
  rw [List.countP_cons, ht, not_isContinuation_of_isLeadByte hlead]
  rfl

theorem countP_flatten {cs : List (List Byte)} (h : ∀ c ∈ cs, IsUtf8Char c) :
    cs.flatten.countP (fun b => !isContinuation b) = cs.length := by
  induction cs with
  | nil => rfl
  | cons c cs ih =>
    rw [List.flatten_cons, List.countP_append, (h c (by simp)).countP,
      ih fun c hc => h c (by simp [hc]), List.length_cons]
    omega

theorem length_le_length_flatten {cs : List (List Byte)} (h : ∀ c ∈ cs, IsUtf8Char c) :
    cs.length ≤ cs.flatten.length := by
  rw [← countP_flatten h]
  exact List.countP_le_length

/-- **The last `n` characters are the tail a backward scan looks for.** -/
theorem isTail_flatten_drop {cs : List (List Byte)} (h : ∀ c ∈ cs, IsUtf8Char c) {n : ℕ}
    (hn : 0 < n) (hle : n ≤ cs.length) :
    Scan.IsTail isContinuation n cs.flatten (cs.drop (cs.length - n)).flatten where
  suffix := by
    refine ⟨(cs.take (cs.length - n)).flatten, ?_⟩
    rw [← List.flatten_append, List.take_append_drop]
  head := by
    have hlt : cs.length - n < cs.length := by omega
    rw [List.drop_eq_getElem_cons hlt]
    obtain ⟨b, t, hc, hlead, -⟩ := (h (cs[cs.length - n]) (List.getElem_mem hlt)).exists_lead
    refine ⟨b, ?_, not_isContinuation_of_isLeadByte hlead⟩
    rw [List.flatten_cons, hc]
    rfl
  count := by
    rw [countP_flatten fun c hc => h c (List.mem_of_mem_drop hc), List.length_drop]
    omega

/-! ## The forward scan -/

/-- `skip_leading_utf8` is the walk by announced lengths. -/
theorem skipLeadingUtf8_eq (lookupTable : Bool) (bytes : List Byte) {stop : ℕ}
    (hstop : stop ≤ bytes.length) (n : ℕ) : ∀ p, skipLeadingUtf8 lookupTable bytes stop n p =
      (Scan.advance (charSize lookupTable) n ((bytes.take stop).drop p)).map (p + ·) := by
  induction n with
  | zero => intro p; simp [skipLeadingUtf8]
  | succ n ih =>
    intro p
    rw [skipLeadingUtf8]
    split_ifs with hp
    · have hlen : p < (bytes.take stop).length := by rw [List.length_take]; omega
      have hhead : (bytes.take stop)[p] = bytes.getD p 0 := by
        rw [List.getElem_take, List.getD_eq_getElem _ _ (by omega)]
      rw [List.drop_eq_getElem_cons hlen, hhead, Scan.advance]
      cases hc : charSize lookupTable (bytes.getD p 0) with
      | none => rfl
      | some c =>
        simp only [Option.bind_eq_bind, Option.bind_some]
        rw [ih (p + c), ← hhead, ← List.drop_eq_getElem_cons hlen, List.drop_drop]
        cases Scan.advance (charSize lookupTable) n ((bytes.take stop).drop (p + c)) with
        | none => rfl
        | some d => simp [Nat.add_assoc]
    · rw [List.drop_eq_nil_of_le (by rw [List.length_take]; omega)]
      simp

/-! ## The backward scan -/

section Backward

variable {c : BinaryColumn} {i : ℕ}

/-- The inner loop drops the continuation bytes at the end of a prefix of
the row. -/
theorem skipContinuation_eq {k : ℕ} (hc : c.OffsetsOk) (hi : i < c.size)
    (hk : k ≤ (c.getSlice i).size) : skipContinuation c.bytes (c.getSlice i).data k =
      (((c.row i).take k).rdropWhile isContinuation).length := by
  have hrow := hc.row_length hi
  induction k with
  | zero => simp [skipContinuation]
  | succ k ih =>
    have hlt : k < (c.row i).length := by omega
    rw [skipContinuation, BinaryColumn.getD_row (by omega), List.getD_eq_getElem _ _ hlt,
      List.take_succ_eq_append_getElem hlt]
    split_ifs with hcont
    · rw [List.rdropWhile_concat_pos _ _ _ hcont, ih (by omega)]
    · rw [List.rdropWhile_concat_neg _ _ _ (by simpa using hcont), List.length_append,
        List.length_take, List.length_singleton]
      omega

/-- One step back lands on the previous first byte, or before the row
where there is none. -/
theorem skipContinuation_spec {k : ℕ} (hc : c.OffsetsOk) (hi : i < c.size)
    (hk : k ≤ (c.getSlice i).size) :
    (skipContinuation c.bytes (c.getSlice i).data k = 0 ∧
        ((c.row i).take k).countP (fun b => !isContinuation b) = 0) ∨
      ∃ k', skipContinuation c.bytes (c.getSlice i).data k = k' + 1 ∧ k' < k ∧
        ∀ j, Scan.IsTail isContinuation j (c.row i) ((c.row i).drop k) ∨
            (j = 0 ∧ k = (c.getSlice i).size) →
          Scan.IsTail isContinuation (j + 1) (c.row i) ((c.row i).drop k') := by
  have hrow := hc.row_length hi
  rw [skipContinuation_eq hc hi hk]
  set p := (c.row i).take k with hp
  have hsplit : p.rdropWhile isContinuation ++ p.rtakeWhile isContinuation = p :=
    List.rdropWhile_append_rtakeWhile ..
  have htake : ∀ b ∈ p.rtakeWhile isContinuation, isContinuation b = true :=
    fun b hb => List.mem_rtakeWhile_imp hb
  have hzero : (p.rtakeWhile isContinuation).countP (fun b => !isContinuation b) = 0 := by
    rw [List.countP_eq_zero]
    intro b hb
    simp [htake b hb]
  rcases List.eq_nil_or_concat (p.rdropWhile isContinuation) with hnil | ⟨q, b, hq⟩
  · refine Or.inl ⟨by rw [hnil]; rfl, ?_⟩
    rw [← hsplit, hnil, List.nil_append]
    exact hzero
  · have hlead : isContinuation b = false := by
      have hne : p.rdropWhile isContinuation ≠ [] := by simp [hq]
      have := List.rdropWhile_last_not isContinuation p hne
      simpa [hq] using this
    have hplen : p.length = k := by rw [hp, List.length_take]; omega
    have hlen : q.length + 1 + (p.rtakeWhile isContinuation).length = k := by
      rw [← hplen, ← congrArg List.length hsplit, hq, List.length_append, List.length_concat]
    -- from the first byte found, the row is that byte, its continuation bytes, and the rest
    have hdrop : (c.row i).drop q.length =
        b :: (p.rtakeWhile isContinuation ++ (c.row i).drop k) := by
      conv_lhs => rw [← List.take_append_drop k (c.row i), ← hp, ← hsplit, hq]
      simp
    refine Or.inr ⟨q.length, by rw [hq]; simp, by omega, ?_⟩
    intro j hj
    have hcount : ((c.row i).drop k).countP (fun b => !isContinuation b) = j := by
      rcases hj with htail | ⟨rfl, hk'⟩
      · exact htail.count
      · rw [List.drop_eq_nil_of_le (by omega)]
        rfl
    refine ⟨List.drop_suffix _ _, ⟨b, by rw [hdrop]; rfl, hlead⟩, ?_⟩
    rw [hdrop, List.countP_cons, List.countP_append, hzero, hcount, hlead]
    simp

/-- **Where the backward scan ends.** After `n` steps it stands at the
first byte that has `n` first bytes from it on, or before the row where
there are fewer. -/
theorem skipTrailing_spec (hc : c.OffsetsOk) (hi : i < c.size) (n : ℕ) : ∀ j k,
    k ≤ (c.getSlice i).size →
    (Scan.IsTail isContinuation j (c.row i) ((c.row i).drop k) ∨
      (j = 0 ∧ k = (c.getSlice i).size)) →
    (skipTrailing c.bytes (c.getSlice i).data n (k + 1) = 0 ∧
        (c.row i).countP (fun b => !isContinuation b) < j + n) ∨
      ∃ k', skipTrailing c.bytes (c.getSlice i).data n (k + 1) = k' + 1 ∧
        k' ≤ (c.getSlice i).size ∧
        (Scan.IsTail isContinuation (j + n) (c.row i) ((c.row i).drop k') ∨
          (j + n = 0 ∧ k' = (c.getSlice i).size)) := by
  have hrow := hc.row_length hi
  induction n with
  | zero => intro j k hk hj; exact Or.inr ⟨k, rfl, hk, hj⟩
  | succ n ih =>
    intro j k hk hj
    rw [skipTrailing]
    rcases skipContinuation_spec hc hi hk with ⟨hzero, hcount⟩ | ⟨k', hk', hlt, htail⟩
    · refine Or.inl ⟨?_, ?_⟩
      · rw [hzero]
        cases n <;> rfl
      · have hrest : ((c.row i).drop k).countP (fun b => !isContinuation b) = j := by
          rcases hj with htail | ⟨rfl, hk'⟩
          · exact htail.count
          · rw [List.drop_eq_nil_of_le (by omega)]
            rfl
        rw [← List.take_append_drop k (c.row i), List.countP_append, hcount, hrest]
        omega
    · rw [hk']
      have := ih (j + 1) k' (by omega) (Or.inl (htail j hj))
      rwa [show j + 1 + n = j + (n + 1) by omega] at this

/-- The same, for `skip_trailing_utf8` at the end of a row. -/
theorem skipTrailingUtf8_spec (hc : c.OffsetsOk) (hi : i < c.size) {n : ℕ} (hn : 0 < n) :
    (skipTrailingUtf8 c.bytes (c.getSlice i) n < (c.getSlice i).data ∧
        (c.row i).countP (fun b => !isContinuation b) < n) ∨
      ∃ k, skipTrailingUtf8 c.bytes (c.getSlice i) n = ((c.getSlice i).data + k : ℕ) ∧
        k ≤ (c.getSlice i).size ∧ Scan.IsTail isContinuation n (c.row i) ((c.row i).drop k) := by
  unfold skipTrailingUtf8
  rcases skipTrailing_spec hc hi n 0 (c.getSlice i).size le_rfl (Or.inr ⟨rfl, rfl⟩) with
    ⟨hzero, hcount⟩ | ⟨k, hk, hle, htail⟩
  · refine Or.inl ⟨?_, by omega⟩
    rw [hzero]
    omega
  · refine Or.inr ⟨k, by rw [hk]; push_cast; omega, hle, ?_⟩
    rcases htail with htail | ⟨h, -⟩
    · rwa [Nat.zero_add] at htail
    · omega

end Backward

/-! ## The small index -/

/-- On a short row the index is the starts of its characters: a `uint8_t`
holds every position. -/
theorem utf8SmallIndexFrom_eq {c : BinaryColumn} {i : ℕ} (hc : c.OffsetsOk) (hi : i < c.size)
    (hsmall : (c.getSlice i).size ≤ smallIndexMax) (fuel : ℕ) : ∀ k,
    utf8SmallIndexFrom c.bytes (c.getSlice i) fuel k =
      Scan.starts tableSize fuel k ((c.row i).drop k) := by
  have hrow := hc.row_length hi
  induction fuel with
  | zero => intro k; rfl
  | succ fuel ih =>
    intro k
    rw [utf8SmallIndexFrom]
    split_ifs with hk
    · have hlt : k < (c.row i).length := by omega
      have hle := tableSize_le ((c.row i).getD k 0)
      unfold smallIndexMax at hsmall
      rw [BinaryColumn.getD_row hk, Nat.mod_eq_of_lt (by omega), ih,
        List.drop_eq_getElem_cons hlt, Scan.starts, ← List.drop_eq_getElem_cons hlt,
        List.drop_drop, List.getD_eq_getElem _ _ hlt]
    · rw [List.drop_eq_nil_of_le (by omega), Scan.starts_nil]

theorem getUtf8SmallIndex_eq {c : BinaryColumn} {i : ℕ} (hc : c.OffsetsOk) (hi : i < c.size)
    (hsmall : (c.getSlice i).size ≤ smallIndexMax) :
    getUtf8SmallIndex c.bytes (c.getSlice i) =
      Scan.starts tableSize (c.row i).length 0 (c.row i) := by
  rw [getUtf8SmallIndex, utf8SmallIndexFrom_eq hc hi hsmall, hc.row_length hi, List.drop_zero]

/-! ## The ASCII check -/

/-- A byte of ASCII text. -/
def IsAscii (b : Byte) : Prop := b.toNat < 128

instance (b : Byte) : Decidable (IsAscii b) := inferInstanceAs (Decidable (_ < _))

theorem isAscii_or (a b : Byte) : IsAscii (a ||| b) ↔ IsAscii a ∧ IsAscii b := by
  unfold IsAscii
  rw [UInt8.toNat_or]
  constructor
  · intro h
    exact ⟨lt_of_le_of_lt Nat.left_le_or h, lt_of_le_of_lt Nat.right_le_or h⟩
  · rintro ⟨ha, hb⟩
    exact Nat.or_lt_two_pow (n := 7) ha hb

theorem shiftRight_seven (b : Byte) : (b >>> 7).toNat = (decide (128 ≤ b.toNat)).toNat := by
  have hb := b.toNat_lt
  have hdiv : (b >>> 7).toNat = b.toNat / 128 := by
    rw [UInt8.toNat_shiftRight, show (7 : UInt8).toNat % 8 = 7 from rfl, Nat.shiftRight_eq_div_pow]
  rw [hdiv]
  by_cases h : 128 ≤ b.toNat
  · rw [decide_eq_true h, Bool.toNat_true]
    omega
  · rw [decide_eq_false h, Bool.toNat_false]
    omega

theorem movemask_cons (b : Byte) (v : List Byte) :
    movemask (b :: v) = Nat.bit (decide (128 ≤ b.toNat)) (movemask v) := by
  rw [Nat.bit_val, ← shiftRight_seven]
  rfl

/-- A bit of a mask is the top bit of its lane. -/
theorem testBit_movemask (v : List Byte) : ∀ i, (movemask v).testBit i =
    v[i]?.any fun b : Byte => decide (128 ≤ b.toNat) := by
  induction v with
  | nil => intro i; rw [List.getElem?_nil]; exact Nat.zero_testBit i
  | cons b v ih =>
    intro i
    cases i with
    | zero => rw [movemask_cons, Nat.testBit_bit_zero, List.getElem?_cons_zero, Option.any_some]
    | succ i => rw [movemask_cons, Nat.testBit_bit_succ, List.getElem?_cons_succ, ih i]

/-- **The bits set in a mask are the lanes with their top bit set.** -/
theorem countP_testBit_movemask (v : List Byte) : ∀ n, v.length ≤ n →
    (List.range n).countP (fun j => (movemask v).testBit j) =
      v.countP fun b : Byte => decide (128 ≤ b.toNat) := by
  induction v with
  | nil => intro n _; simp [movemask]
  | cons b v ih =>
    intro n hn
    rw [List.length_cons] at hn
    obtain ⟨n, rfl⟩ : ∃ m, n = m + 1 := ⟨n - 1, by omega⟩
    have hrest : ((fun j => (movemask (b :: v)).testBit j) ∘ Nat.succ) =
        fun j => (movemask v).testBit j := by
      funext j
      simp only [Function.comp_apply, movemask_cons, Nat.testBit_bit_succ]
    rw [List.range_succ_eq_map, List.countP_cons, List.countP_map, hrest, ih n (by omega),
      List.countP_cons, movemask_cons, Nat.testBit_bit_zero]

/-- The mask of a comparison has one bit for each lane that passes. -/
theorem popcount_movemask {α : Type} (pass : α → Bool) {v : List α} (hv : v.length ≤ 32) :
    Machine.builtinPopcount (movemask (v.map fun a => if pass a then (0xFF : Byte) else 0)) =
      v.countP pass := by
  have htop (a : α) : decide (128 ≤ (if pass a then (0xFF : Byte) else 0).toNat) = pass a := by
    cases pass a <;> rfl
  rw [Machine.builtinPopcount, countP_testBit_movemask _ 32 (by rwa [List.length_map]),
    List.countP_map]
  exact List.countP_congr fun a _ => by rw [Function.comp_apply, htop]

theorem movemask_eq_zero_iff (v : List Byte) : movemask v = 0 ↔ ∀ b ∈ v, IsAscii b := by
  induction v with
  | nil => simp [movemask]
  | cons b v ih =>
    have hb : decide (128 ≤ b.toNat) = false ↔ IsAscii b := by
      rw [decide_eq_false_iff_not, Nat.not_le, IsAscii]
    rw [movemask_cons, Nat.bit_eq_zero_iff, ih, hb, List.forall_mem_cons, and_comm]

theorem forall_isAscii_zipWith {u v : List Byte} (h : u.length = v.length) :
    (∀ b ∈ List.zipWith (· ||| ·) u v, IsAscii b) ↔
      (∀ b ∈ u, IsAscii b) ∧ ∀ b ∈ v, IsAscii b := by
  induction u generalizing v with
  | nil =>
    cases v with
    | nil => simp
    | cons b v => cases h
  | cons a u ih =>
    cases v with
    | nil => cases h
    | cons b v =>
      simp only [List.zipWith_cons_cons, List.forall_mem_cons, isAscii_or,
        ih (Nat.succ.inj h)]
      tauto

/-- The vector loop has seen exactly the bytes before the position it
stops at. -/
theorem orRegisters_spec (lanes : ℕ) (src : List Byte) (fuel : ℕ) : ∀ (i : ℕ) (acc : List Byte),
    acc.length = lanes → i ≤ src.length →
    (((∀ b ∈ (orRegisters lanes src fuel i acc).1, IsAscii b) ∧
        ∀ b ∈ src.drop (orRegisters lanes src fuel i acc).2, IsAscii b) ↔
      (∀ b ∈ acc, IsAscii b) ∧ ∀ b ∈ src.drop i, IsAscii b) := by
  induction fuel with
  | zero => intro i acc _ _; rfl
  | succ fuel ih =>
    intro i acc hacc hi
    rw [orRegisters]
    split_ifs with hfull
    · have hreg : ((src.drop i).take lanes).length = lanes := by
        rw [List.length_take, List.length_drop]
        omega
      rw [ih _ _ (by rw [List.length_zipWith, hacc, hreg, Nat.min_self]) hfull,
        forall_isAscii_zipWith (by rw [hacc, hreg]), and_assoc, ← List.drop_drop,
        ← List.forall_mem_append, List.take_append_drop]
    · rfl

theorem foldl_or_isAscii (xs : List Byte) : ∀ a : Byte,
    IsAscii (xs.foldl (· ||| ·) a) ↔ IsAscii a ∧ ∀ b ∈ xs, IsAscii b := by
  induction xs with
  | nil => intro a; simp
  | cons b xs ih => intro a; rw [List.foldl_cons, ih, isAscii_or, List.forall_mem_cons, and_assoc]

/-- **The check is of every byte**, whatever it is compiled for. -/
theorem validateAsciiFast_iff (simd : Simd) (src : List Byte) :
    validateAsciiFast simd src = true ↔ ∀ b ∈ src, IsAscii b := by
  have hspec := orRegisters_spec simd.lanes src (src.length / simd.lanes) 0
    (List.replicate simd.lanes 0) (List.length_replicate ..) (Nat.zero_le _)
  have hacc : ∀ b ∈ List.replicate simd.lanes (0 : Byte), IsAscii b := by
    intro b hb
    rw [List.eq_of_mem_replicate hb]
    decide
  have htop : ∀ b : Byte, (b &&& 0x80).toNat = 0 ↔ IsAscii b :=
    forall_byte (by decide +kernel)
  have hzero : IsAscii (0 : Byte) := by decide
  rw [List.drop_zero] at hspec
  rw [← and_iff_right hacc (b := ∀ b ∈ src, IsAscii b), ← hspec]
  simp only [validateAsciiFast, beq_iff_eq, Nat.or_eq_zero_iff, movemask_eq_zero_iff, htop,
    foldl_or_isAscii, and_iff_right hzero]

end StringFunctions

end CppEtudes
