import CppEtudes.Memequal.Model.Memequal

/-!
# Both comparisons are equality

Every label of the switch compares the bytes before its own number, and
all of them (`memEqualRest_eq`): a byte is added to what the next label
compares, and a word is its bytes.
-/

namespace CppEtudes

namespace Memequal

variable {p₁ p₂ : List UInt8} {k w : ℕ}

/-! ## Words and registers -/

theorem ofLittleEndian_inj {a b : List UInt8} (hlen : a.length = b.length) :
    ofLittleEndian a = ofLittleEndian b ↔ a = b := by
  refine ⟨fun h => ?_, congrArg _⟩
  induction a generalizing b with
  | nil => exact (List.length_eq_zero_iff.1 hlen.symm).symm
  | cons x a ih =>
    obtain ⟨y, b, rfl⟩ := List.exists_cons_of_length_eq_add_one hlen.symm
    rw [ofLittleEndian, ofLittleEndian] at h
    have hx := x.toNat_lt
    have hy := y.toNat_lt
    rw [UInt8.toNat_inj.1 (by omega : x.toNat = y.toNat), ih (Nat.succ.inj hlen) (by omega)]

/-- No bit of the difference: the registers are equal. -/
theorem testc_zero_xor {a b : List UInt8} {n : ℕ} (ha : a.length = n) (hb : b.length = n) :
    testc (List.replicate n 0) (xor a b) = true ↔ a = b := by
  induction n generalizing a b with
  | zero =>
    rw [List.length_eq_zero_iff.1 ha, List.length_eq_zero_iff.1 hb]
    exact ⟨fun _ => rfl, fun _ => rfl⟩
  | succ n ih =>
    obtain ⟨x, a, rfl⟩ := List.exists_cons_of_length_eq_add_one ha
    obtain ⟨y, b, rfl⟩ := List.exists_cons_of_length_eq_add_one hb
    have hrest := ih (Nat.succ.inj ha) (Nat.succ.inj hb)
    rw [testc, xor] at hrest ⊢
    rw [List.replicate_succ, List.zipWith_cons_cons, List.zipWith_cons_cons, List.all_cons,
      Bool.and_eq_true, hrest, List.cons.injEq, beq_iff_eq, UInt8.not_zero, UInt8.neg_one_and,
      UInt8.xor_eq_zero_iff]

theorem load_eq {p : List UInt8} {i : ℕ} (h : i + w ≤ p.length) :
    load w i p = some ((p.drop i).take w) := if_pos h

/-- A word is its bytes. -/
theorem sameWord_eq {i : ℕ} (h₁ : w * i + w ≤ p₁.length) (h₂ : w * i + w ≤ p₂.length) :
    sameWord p₁ p₂ w i =
      some (decide ((p₁.drop (w * i)).take w = (p₂.drop (w * i)).take w)) := by
  have hlen : ((p₁.drop (w * i)).take w).length = ((p₂.drop (w * i)).take w).length := by
    simp only [List.length_take, List.length_drop]
    omega
  rw [sameWord, word, load_eq h₁, word, load_eq h₂]
  exact congrArg some (decide_eq_decide.2 (ofLittleEndian_inj hlen))

/-! ## The switch -/

/-- The bytes before `k` are compared. -/
def Compares (p₁ p₂ : List UInt8) (k : ℕ) (r : Option Bool) : Prop :=
  r = some (decide (p₁.take k = p₂.take k))

namespace Compares

/-- One byte more. -/
theorem ifSame {r : Option Bool} (h : Compares p₁ p₂ k r) (h₁ : k < p₁.length)
    (h₂ : k < p₂.length) : Compares p₁ p₂ (k + 1) (ifSame p₁ p₂ k r) := by
  have htake : p₁.take (k + 1) = p₂.take (k + 1) ↔ p₁[k] = p₂[k] ∧ p₁.take k = p₂.take k := by
    rw [List.take_succ_eq_append_getElem h₁, List.take_succ_eq_append_getElem h₂]
    constructor
    · intro h
      obtain ⟨htake, hlast⟩ := List.append_inj' h rfl
      exact ⟨List.singleton_inj.1 hlast, htake⟩
    · rintro ⟨hlast, htake⟩
      rw [htake, hlast]
  rw [Compares, Memequal.ifSame, List.getElem?_eq_getElem h₁, List.getElem?_eq_getElem h₂]
  dsimp only [Option.bind_eq_bind, Option.bind_some]
  by_cases hne : p₁[k] = p₂[k]
  · rw [if_neg (not_not.2 hne), h]
    exact congrArg some (decide_eq_decide.2 (by rw [htake, and_iff_right hne]))
  · rw [if_pos hne, decide_eq_false fun h => hne (htake.1 h).1]
    rfl

theorem word (h₁ : w ≤ p₁.length) (h₂ : w ≤ p₂.length) :
    Compares p₁ p₂ w (sameWord p₁ p₂ w 0) := by
  rw [Compares, sameWord_eq (by omega) (by omega), Nat.mul_zero, List.drop_zero, List.drop_zero]

/-- Case twelve: the third word of four bytes, and the first of eight. -/
theorem twelve (h₁ : 12 ≤ p₁.length) (h₂ : 12 ≤ p₂.length) :
    Compares p₁ p₂ 12 (do
      let same ← sameWord p₁ p₂ 4 2
      if same then sameWord p₁ p₂ 8 0 else return false) := by
  have htake : p₁.take 12 = p₂.take 12 ↔
      (p₁.drop 8).take 4 = (p₂.drop 8).take 4 ∧ p₁.take 8 = p₂.take 8 := by
    have hlen : (p₁.take 8).length = (p₂.take 8).length := by
      simp only [List.length_take]
      omega
    rw [show 12 = 8 + 4 from rfl, List.take_add, List.take_add]
    constructor
    · intro h
      obtain ⟨hfirst, hthird⟩ := List.append_inj h hlen
      exact ⟨hthird, hfirst⟩
    · rintro ⟨hthird, hfirst⟩
      rw [hfirst, hthird]
  have hfirst : sameWord p₁ p₂ 8 0 = some (decide (p₁.take 8 = p₂.take 8)) :=
    word (by omega) (by omega)
  rw [Compares, sameWord_eq (by omega) (by omega), hfirst]
  dsimp only [Option.bind_eq_bind, Option.bind_some]
  by_cases hthird : (p₁.drop 8).take 4 = (p₂.drop 8).take 4
  · rw [if_pos (decide_eq_true hthird)]
    exact congrArg some (decide_eq_decide.2 (by rw [htake, and_iff_right hthird]))
  · rw [if_neg (by rw [decide_eq_true_eq]; exact hthird),
      decide_eq_false fun h => hthird (htake.1 h).1]
    rfl

end Compares

/-- **The switch compares all that is left.** -/
theorem memEqualRest_eq (hlen : p₁.length = p₂.length) : ∀ rest, rest < 16 → rest ≤ p₁.length →
    Compares p₁ p₂ rest (memEqualRest p₁ p₂ rest) := by
  -- a case needs as many bytes as its number says, whatever falls through to it
  have c₀ : Compares p₁ p₂ 0 (some true) := rfl
  have c₁ (h : 1 ≤ p₁.length) := c₀.ifSame (by omega) (by omega)
  have c₂ (h : 2 ≤ p₁.length) := Compares.word (w := 2) h (hlen ▸ h)
  have c₃ (h : 3 ≤ p₁.length) := (c₂ (by omega)).ifSame (by omega) (by omega)
  have c₄ (h : 4 ≤ p₁.length) := Compares.word (w := 4) h (hlen ▸ h)
  have c₅ (h : 5 ≤ p₁.length) := (c₄ (by omega)).ifSame (by omega) (by omega)
  have c₆ (h : 6 ≤ p₁.length) := (c₅ (by omega)).ifSame (by omega) (by omega)
  have c₇ (h : 7 ≤ p₁.length) := (c₆ (by omega)).ifSame (by omega) (by omega)
  have c₈ (h : 8 ≤ p₁.length) := Compares.word (w := 8) h (hlen ▸ h)
  have c₉ (h : 9 ≤ p₁.length) := (c₈ (by omega)).ifSame (by omega) (by omega)
  have c₁₀ (h : 10 ≤ p₁.length) := (c₉ (by omega)).ifSame (by omega) (by omega)
  have c₁₁ (h : 11 ≤ p₁.length) := (c₁₀ (by omega)).ifSame (by omega) (by omega)
  have c₁₂ (h : 12 ≤ p₁.length) := Compares.twelve h (hlen ▸ h)
  have c₁₃ (h : 13 ≤ p₁.length) := (c₁₂ (by omega)).ifSame (by omega) (by omega)
  have c₁₄ (h : 14 ≤ p₁.length) := (c₁₃ (by omega)).ifSame (by omega) (by omega)
  have c₁₅ (h : 15 ≤ p₁.length) := (c₁₄ (by omega)).ifSame (by omega) (by omega)
  intro rest hrest hle
  match rest, hle with
  | 0, _ => rfl
  | 1, h => exact c₁ h
  | 2, h => exact c₂ h
  | 3, h => exact c₃ h
  | 4, h => exact c₄ h
  | 5, h => exact c₅ h
  | 6, h => exact c₆ h
  | 7, h => exact c₇ h
  | 8, h => exact c₈ h
  | 9, h => exact c₉ h
  | 10, h => exact c₁₀ h
  | 11, h => exact c₁₁ h
  | 12, h => exact c₁₂ h
  | 13, h => exact c₁₃ h
  | 14, h => exact c₁₄ h
  | 15, h => exact c₁₅ h
  | _ + 16, _ => omega

/-! ## The functions -/

/-- Register by register, and then the rest. -/
theorem memEqualRegisters_eq {rest : ℕ} (hrest : rest < 16) (blocks : ℕ) :
    ∀ {p₁ p₂ : List UInt8}, p₁.length = blocks * 16 + rest → p₂.length = blocks * 16 + rest →
    memEqualRegisters rest blocks p₁ p₂ = some (decide (p₁ = p₂)) := by
  induction blocks with
  | zero =>
    intro p₁ p₂ h₁ h₂
    have hswitch := memEqualRest_eq (h₁.trans h₂.symm) rest hrest (by omega)
    rw [Compares, List.take_of_length_le (by omega), List.take_of_length_le (by omega)] at hswitch
    exact hswitch
  | succ blocks ih =>
    intro p₁ p₂ h₁ h₂
    have hequal := testc_zero_xor (n := 16) (a := p₁.take 16) (b := p₂.take 16)
      (by rw [List.length_take]; omega) (by rw [List.length_take]; omega)
    rw [memEqualRegisters, load_eq (by omega), load_eq (by omega), List.drop_zero, List.drop_zero]
    dsimp only [Option.bind_eq_bind, Option.bind_some]
    by_cases hfirst : p₁.take 16 = p₂.take 16
    · rw [if_neg (not_not.2 (hequal.2 hfirst)), ih (by rw [List.length_drop]; omega)
        (by rw [List.length_drop]; omega)]
      refine congrArg some (decide_eq_decide.2 ⟨fun h => ?_, congrArg _⟩)
      rw [← List.take_append_drop 16 p₁, hfirst, h, List.take_append_drop]
    · rw [if_pos (hfirst ∘ hequal.1), decide_eq_false fun h => hfirst (congrArg _ h)]
      rfl

theorem memcmp_eq_zero_iff : ∀ {p₁ p₂ : List UInt8}, p₁.length = p₂.length →
    (memcmp p₁ p₂ = 0 ↔ p₁ = p₂)
  | [], [], _ => ⟨fun _ => rfl, fun _ => rfl⟩
  | a :: p₁, b :: p₂, h => by
    rw [memcmp, List.cons.injEq]
    by_cases hab : a = b
    · rw [if_pos hab, memcmp_eq_zero_iff (Nat.succ.inj h), and_iff_right hab]
    · rw [if_neg hab]
      refine iff_of_false ?_ fun h => hab h.1
      split_ifs <;> decide

/-- **`mem_equal_optimized` answers as `mem_equal_memcpy` does.** -/
theorem memEqualOptimized_eq (p₁ p₂ : List UInt8) :
    memEqualOptimized p₁ p₂ = some (memEqualMemcpy p₁ p₂) := by
  rw [memEqualOptimized, memEqualMemcpy]
  by_cases hlen : p₁.length = p₂.length
  · have hmemcmp : (p₁.length == p₂.length && memcmp p₁ p₂ == 0) = decide (p₁ = p₂) := by
      rw [beq_iff_eq.2 hlen, Bool.true_and]
      exact decide_eq_decide.2 (memcmp_eq_zero_iff hlen)
    have hdiv := Nat.div_add_mod' p₁.length 16
    rw [if_neg (not_not.2 hlen), hmemcmp]
    by_cases hzero : p₁.length = 0
    · rw [if_pos hzero, List.length_eq_zero_iff.1 hzero,
        List.length_eq_zero_iff.1 (hlen ▸ hzero : p₂.length = 0)]
      rfl
    · rw [if_neg hzero, memEqualRegisters_eq (Nat.mod_lt _ (by omega)) _ hdiv.symm
        (hlen ▸ hdiv.symm)]
  · rw [if_pos hlen, beq_eq_false_iff_ne.2 hlen, Bool.false_and]

/-- A difference in the last byte of twelve. -/
example : memEqualOptimized [0, 1, 2, 3, 4, 5, 6, 7, 8, 9, 10, 11]
    [0, 1, 2, 3, 4, 5, 6, 7, 8, 9, 10, 12] = some false := by
  decide

end Memequal

end CppEtudes
