import CppEtudes.StringFunctions.Substr
import CppEtudes.StringFunctions.Model.Utf8Length

/-!
# The length of a text

Hopping by announced lengths and counting the bytes that do not continue
a character both give the number of characters. The hopping loop is the
index of `Common.Scan`, whatever the decoder, as long as the decoder
announces valid characters (`Announces`); the vector loop counts a
register at a time what the scalar loop counts behind it
(`utf8LengthSimd_eq`).
-/

namespace CppEtudes

namespace StringFunctions

open Machine

variable {cs : List (List Byte)}

/-! ## Decoders -/

/-- The decoder announces the length of every valid character. -/
def Announces (size : Byte → Option ℕ) : Prop := ∀ b n, IsLeadByte b n → size b = some n

/-- It is enough to look at every byte and the four lengths. -/
theorem announces_of_bytes {size : Byte → Option ℕ}
    (h : ∀ k, k < 256 → ∀ n, n < 5 → IsLeadByte (UInt8.ofNat k) n →
      size (UInt8.ofNat k) = some n) : Announces size := by
  intro b n hlead
  have hn : n < 5 := by
    match n, hlead with
    | 1, _ | 2, _ | 3, _ | 4, _ => omega
  have hb := h b.toNat b.toNat_lt n hn
  rw [UInt8.ofNat_toNat] at hb
  exact hb hlead

theorem announces_tableSize : Announces fun b => some (tableSize b) :=
  fun _ _ h => charSize_of_isLeadByte true h

theorem announces_tableSize2 : Announces fun b => some (tableSize2 b) :=
  announces_of_bytes (by decide +kernel)

theorem announces_clzSize : Announces fun b => clzSize (~~~b).toNat :=
  announces_of_bytes (by decide +kernel)

theorem Announces.isChar {size : Byte → Option ℕ} (h : Announces size) {c : List Byte}
    (hc : IsUtf8Char c) : Scan.IsChar size c := by
  obtain ⟨b, t, rfl, hlead, -⟩ := hc.exists_lead
  exact ⟨b, t, rfl, h b _ hlead⟩

/-! ## The hopping loop -/

theorem utf8LengthFrom_eq (size : Byte → Option ℕ) (str : List Byte) (fuel : ℕ) : ∀ i len,
    utf8LengthFrom size str fuel i len =
      (Scan.index size 2147483648 fuel i (str.drop i)).map fun index => len + index.length := by
  induction fuel with
  | zero => intro i len; rfl
  | succ fuel ih =>
    intro i len
    rw [utf8LengthFrom]
    split_ifs with hi
    · rw [List.drop_eq_getElem_cons hi, Scan.index, ← List.drop_eq_getElem_cons hi,
        List.getD_eq_getElem _ _ hi]
      cases size str[i] with
      | none => rfl
      | some c =>
        simp only [Option.bind_eq_bind, Option.bind_some, intAdd, List.drop_drop]
        split_ifs
        · rw [Option.bind_some, ih]
          cases Scan.index size 2147483648 fuel (i + c) (str.drop (i + c)) with
          | none => rfl
          | some index => simp; omega
        · rfl
    · rw [List.drop_eq_nil_of_le (by omega), Scan.index_nil]
      rfl

/-- **Hopping counts the characters**, by any decoder that announces
them, and has no result once the counter leaves `int`. -/
theorem utf8LengthFrom_flatten {size : Byte → Option ℕ} (hsize : Announces size)
    (h : ∀ c ∈ cs, IsUtf8Char c) :
    utf8LengthFrom size cs.flatten cs.flatten.length 0 0 =
      if cs.flatten.length < 2147483648 then some cs.length else none := by
  rw [utf8LengthFrom_eq, List.drop_zero,
    Scan.index_flatten _ 0 cs (fun c hc => hsize.isChar (h c hc))
    (length_le_length_flatten h) (by omega), Nat.zero_add]
  split_ifs <;> simp

/-! ## The vector loop -/

theorem aboveThreshold_eq (b : Byte) : aboveThreshold b = !isContinuation b := by
  have hb := b.toNat_lt
  have hthreshold : (0b10111111 : UInt8).toInt8.toInt = -65 := by decide
  have hint : b.toInt8.toInt = (b.toNat : ℤ).bmod 256 := BitVec.toInt_eq_toNat_bmod b.toBitVec
  rw [aboveThreshold, isContinuation, Bool.eq_iff_iff, decide_eq_true_iff, Int8.lt_iff_toInt_lt,
    hthreshold, hint, Int.bmod_def]
  simp only [Bool.not_eq_true', Bool.and_eq_false_iff, decide_eq_false_iff_not]
  omega

/-- A register adds its bytes above the threshold. -/
theorem popcount_cmpgtThreshold {v : List Byte} (hv : v.length ≤ 32) :
    builtinPopcount (movemask (cmpgtThreshold v)) = v.countP aboveThreshold :=
  popcount_movemask aboveThreshold hv

/-- **Whole registers count what is left to count less.** -/
theorem countRegisters_spec {lanes : ℕ} (hlanes : lanes ≤ 32) (str : List Byte) (fuel : ℕ) :
    ∀ p len, (countRegisters lanes str fuel p len).1 +
        (str.drop (countRegisters lanes str fuel p len).2).countP aboveThreshold =
      len + (str.drop p).countP aboveThreshold := by
  induction fuel with
  | zero => intro p len; rfl
  | succ fuel ih =>
    intro p len
    rw [countRegisters]
    split_ifs with hp
    · have hblock : ((str.drop p).take lanes).length ≤ 32 := by
        rw [List.length_take]
        omega
      have hsplit := List.take_append_drop lanes (str.drop p)
      rw [ih, popcount_cmpgtThreshold hblock]
      conv_rhs => rw [← hsplit, List.countP_append, List.drop_drop]
      omega
    · rfl

theorem foldl_aboveThreshold (str : List Byte) : ∀ len,
    str.foldl (fun len b => len + (aboveThreshold b).toNat) len =
      len + str.countP aboveThreshold := by
  induction str with
  | nil => intro len; rfl
  | cons b str ih =>
    intro len
    rw [List.foldl_cons, ih, List.countP_cons]
    cases aboveThreshold b <;> simp
    omega

/-- **The SIMD variants count the bytes that do not continue a
character.** -/
theorem utf8LengthSimd_eq {lanes : ℕ} (hlanes : lanes ≤ 32) (h : ∀ c ∈ cs, IsUtf8Char c)
    (hlen : cs.flatten.length < 2147483648) : utf8LengthSimd lanes cs.flatten = some cs.length := by
  have hspec := countRegisters_spec hlanes cs.flatten (cs.flatten.length / lanes) 0 0
  have hcount : cs.flatten.countP aboveThreshold = cs.length := by
    rw [← countP_flatten h]
    exact List.countP_congr fun b _ => by rw [aboveThreshold_eq]
  have hle := length_le_length_flatten h
  rw [List.drop_zero, hcount, Nat.zero_add] at hspec
  simp only [utf8LengthSimd]
  rw [foldl_aboveThreshold, hspec, intAdd, if_pos (by omega), Nat.zero_add]

/-- **The five variants return the number of characters** of every text
of less than `2^31` bytes. -/
theorem utf8Length_variants (simd : Simd) (h : ∀ c ∈ cs, IsUtf8Char c)
    (hlen : cs.flatten.length < 2147483648) :
    utf8Length cs.flatten = some cs.length ∧ utf8Length2 cs.flatten = some cs.length ∧
      utf8Length3 cs.flatten = some cs.length ∧
      utf8LengthSimdAvx2 simd cs.flatten = some cs.length ∧
      utf8LengthSimdSse2 simd cs.flatten = some cs.length := by
  have hhop : ∀ {size : Byte → Option ℕ}, Announces size →
      utf8LengthFrom size cs.flatten cs.flatten.length 0 0 = some cs.length := by
    intro size hsize
    rw [utf8LengthFrom_flatten hsize h, if_pos hlen]
  have hlanes : simd.lanes ≤ 32 := by cases simd <;> decide
  exact ⟨hhop announces_tableSize, hhop announces_tableSize2, hhop announces_clzSize,
    utf8LengthSimd_eq hlanes h hlen, utf8LengthSimd_eq (by omega) h hlen⟩

/-- Forty bytes: a wide register and a tail, or two narrow ones and a
tail. -/
def fortyBytes : List (List Byte) := List.replicate 13 [0xE4, 0xBD, 0xA0] ++ [[0x61]]

theorem utf8Length_variants_fortyBytes :
    utf8Length fortyBytes.flatten = some 14 ∧ utf8Length2 fortyBytes.flatten = some 14 ∧
      utf8Length3 fortyBytes.flatten = some 14 ∧
      utf8LengthSimdAvx2 .avx2 fortyBytes.flatten = some 14 ∧
      utf8LengthSimdSse2 .avx2 fortyBytes.flatten = some 14 :=
  utf8Length_variants .avx2 (by decide) (by decide)

end StringFunctions

end CppEtudes
