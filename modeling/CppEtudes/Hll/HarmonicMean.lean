import CppEtudes.Common.Blocks
import CppEtudes.Hll.Model.HarmonicMean
import CppEtudes.StringFunctions.Utf8
import Mathlib.Algebra.BigOperators.Group.List.Basic
import Mathlib.Algebra.Order.BigOperators.Group.List
import Mathlib.Algebra.Order.Ring.Rat
import Mathlib.Tactic.Ring

/-!
# What the harmonic means are

All versions but the second one add the same terms, entry by entry. The
lanes of the second one add up to the terms of the whole blocks, in
whatever order; but its scalar loop adds `2 ^ d` for an entry `d`, where
the others add `2 ^ (-d)`.
-/

namespace CppEtudes

namespace Hll

open Machine StringFunctions

/-- The sum of the inverse powers of two. -/
def inverseSum (data : List ℤ) : ℚ := (data.map fun d => (2 : ℚ) ^ (-d)).sum

/-- **The harmonic mean**, without the number of entries, and how many of
them are zero. -/
def mean (data : List ℤ) : ℚ × ℕ := (1 / inverseSum data, data.count 0)

theorem inverseSum_pos {data : List ℤ} (h : data ≠ []) : 0 < inverseSum data := by
  refine List.sum_pos _ (fun q hq => ?_) (by rwa [ne_eq, List.map_eq_nil_iff])
  obtain ⟨d, -, rfl⟩ := List.mem_map.1 hq
  exact zpow_pos (by norm_num) _

theorem inverseSum_append (l₁ l₂ : List ℤ) :
    inverseSum (l₁ ++ l₂) = inverseSum l₁ + inverseSum l₂ := by
  rw [inverseSum, List.map_append, List.sum_append]
  rfl

/-! ## One entry at a time -/

section Entries

variable {term : ℤ → Option ℚ} {f : ℤ → ℚ} {data : List ℤ}

theorem addEntry_eq {d : ℤ} (hterm : term d = some (f d)) {sums : ℚ × ℕ} (h : sums.2 + 1 < 2 ^ 31) :
    addEntry term sums d = some (sums.1 + f d, sums.2 + [d].count 0) := by
  have hadd : intAdd sums.2 1 = some (sums.2 + 1) := if_pos h
  rw [addEntry, hterm, List.count_singleton]
  by_cases hd : d = 0
  · simp [hd, hadd]
  · simp [hd]

/-- What an entry and those behind it add. -/
theorem sums_cons (f : ℤ → ℚ) (d : ℤ) (data : List ℤ) (sums : ℚ × ℕ) :
    (sums.1 + f d + (data.map f).sum, sums.2 + [d].count 0 + data.count 0) =
      (sums.1 + ((d :: data).map f).sum, sums.2 + (d :: data).count 0) := by
  rw [List.map_cons, List.sum_cons, add_assoc, Nat.add_assoc, ← List.count_append,
    List.singleton_append]

/-- A loop without a counter. -/
theorem foldlM_addEntry (hterm : ∀ d ∈ data, term d = some (f d)) (sums : ℚ × ℕ)
    (h : sums.2 + data.length < 2 ^ 31) :
    data.foldlM (addEntry term) sums =
      some (sums.1 + (data.map f).sum, sums.2 + data.count 0) := by
  induction data generalizing sums with
  | nil => rw [List.foldlM_nil, List.map_nil, List.sum_nil, add_zero]; rfl
  | cons d data ih =>
    rw [List.length_cons] at h
    have hcount : [d].count 0 ≤ 1 := List.count_le_length
    rw [List.foldlM_cons, addEntry_eq (hterm d List.mem_cons_self) (by omega), Option.bind_eq_bind,
      Option.bind_some, ih (fun e he => hterm e (List.mem_cons_of_mem _ he)) _ (by dsimp only; omega),
      sums_cons]

/-- **A loop with a counter** that is an `int`. -/
theorem addEntries_eq (hterm : ∀ d ∈ data, term d = some (f d)) (i : ℕ) (sums : ℚ × ℕ)
    (h : sums.2 ≤ i) (hi : i < 2 ^ 31) :
    addEntries term data i sums = if i + data.length < 2 ^ 31 then
      some (sums.1 + (data.map f).sum, sums.2 + data.count 0) else none := by
  induction data generalizing i sums with
  | nil => rw [addEntries, if_pos (by exact hi), List.map_nil, List.sum_nil, add_zero]; rfl
  | cons d data ih =>
    rw [addEntries, List.length_cons]
    rcases Nat.lt_or_ge (i + 1) (2 ^ 31) with hnext | hlast
    · have hcount : [d].count 0 ≤ 1 := List.count_le_length
      have hadd : intAdd i 1 = some (i + 1) := if_pos hnext
      have hlen : i + 1 + data.length = i + (data.length + 1) := by omega
      rw [addEntry_eq (hterm d List.mem_cons_self) (by omega), hadd, Option.bind_eq_bind,
        Option.bind_some, Option.bind_eq_bind, Option.bind_some,
        ih (fun e he => hterm e (List.mem_cons_of_mem _ he)) _ _ (by dsimp only; omega) hnext,
        sums_cons, hlen]
    · have hadd : intAdd i 1 = none := if_neg (Nat.not_lt.2 hlast)
      rw [hadd, if_neg (by omega)]
      cases addEntry term sums d <;> rfl

/-- **A version with one loop.** -/
theorem calcHarmonicMean_eq (hne : data ≠ []) (hterm : ∀ d ∈ data, term d = some (2 ^ (-d))) :
    calcHarmonicMean term data = if data.length < 2 ^ 31 then some (mean data) else none := by
  rw [calcHarmonicMean, addEntries_eq hterm 0 (0, 0) le_rfl (by omega), Nat.zero_add]
  split_ifs
  · rw [Option.bind_some, zero_add, Nat.zero_add]
    exact if_neg (inverseSum_pos hne).ne'
  · rfl

end Entries

/-! ## The terms -/

section Terms

variable {d : ℤ}

theorem oneShl_eq (h₀ : 0 ≤ d) (h : d ≤ 62) : oneShl d = some (2 ^ d.toNat) := if_pos ⟨h₀, by omega⟩

theorem one_div_two_pow (h₀ : 0 ≤ d) : 1 / (((2 : ℤ) ^ d.toNat : ℤ) : ℚ) = 2 ^ (-d) := by
  rw [Int.cast_pow, Int.cast_ofNat, ← zpow_natCast, Int.toNat_of_nonneg h₀, zpow_neg, one_div]

theorem inverseShl_eq (h₀ : 0 ≤ d) (h : d ≤ 62) : inverseShl d = some (2 ^ (-d)) := by
  rw [inverseShl, oneShl_eq h₀ h, Option.map_some, one_div_two_pow h₀]

theorem tablesAt_eq (h₀ : 0 ≤ d) (h : d ≤ 62) : tablesAt d = some (2 ^ (-d)) := by
  rw [tablesAt, if_pos h₀, tables, List.getElem?_map, List.getElem?_range (by omega),
    Option.map_some, Option.join_some, Int.toNat_of_nonneg h₀, inverseShl_eq h₀ h]

end Terms

/-! ## Lanes -/

section Lanes

variable {exp256Ps : ℚ → ℚ} {block : List ℤ} {lanes : List ℚ}

/-- The function is an exponential where `calc_harmonic_mean2` uses it. -/
def IsExp (exp256Ps : ℚ → ℚ) : Prop :=
  ∀ d : ℤ, 0 ≤ d → d ≤ 62 → exp256Ps ((0 - d) * ln2) = 2 ^ (-d)

/-- **Eight entries**, in whatever order they meet the lanes. -/
theorem addLanes_eq (hexp : IsExp exp256Ps) (hblock : ∀ d ∈ block, 0 ≤ d ∧ d ≤ 62)
    (hlen : block.length = lanes.length) :
    (addLanes exp256Ps lanes block).length = lanes.length ∧
      (addLanes exp256Ps lanes block).sum = lanes.sum + inverseSum block := by
  have hterms : (block.reverse.map fun d : ℤ => exp256Ps ((0 - d) * ln2)) =
      block.reverse.map fun d => (2 : ℚ) ^ (-d) :=
    List.map_congr_left fun d hd => by
      obtain ⟨h₀, h⟩ := hblock d (List.mem_reverse.1 hd)
      exact hexp d h₀ h
  rw [addLanes, hterms]
  refine ⟨?_, ?_⟩
  · rw [List.length_zipWith, List.length_map, List.length_reverse, hlen, Nat.min_self]
  · rw [← List.sum_add_sum_eq_sum_zipWith_of_length_eq _ _ (by simpa using hlen), List.map_reverse,
      List.sum_reverse, add_comm]
    rfl

/-- **A block** of four times eight entries. -/
theorem addBlock_eq (hexp : IsExp exp256Ps) (hblock : ∀ d ∈ block, 0 ≤ d ∧ d ≤ 62)
    (hlen : block.length = 32) (hlanes : lanes.length = 8) :
    (addBlock exp256Ps lanes block).length = 8 ∧
      (addBlock exp256Ps lanes block).sum = lanes.sum + inverseSum block := by
  -- after `k` rounds the first `8 * k` entries have been added
  have hrounds : ∀ k ≤ 4, ∃ sum, sum = (List.range k).foldl (fun sum i =>
      addLanes exp256Ps sum ((block.drop (8 * i)).take 8)) lanes ∧ sum.length = 8 ∧
      sum.sum = lanes.sum + inverseSum (block.take (8 * k)) := by
    intro k
    induction k with
    | zero => exact fun _ => ⟨lanes, rfl, hlanes, by rw [Nat.mul_zero]; exact (add_zero _).symm⟩
    | succ k ih =>
      intro hk
      obtain ⟨sum, hsum, hlen', htotal⟩ := ih (by omega)
      have height : ((block.drop (8 * k)).take 8).length = sum.length := by
        rw [List.length_take, List.length_drop, hlen, hlen']
        omega
      obtain ⟨hlen'', htotal'⟩ := addLanes_eq hexp
        (fun d hd => hblock d (List.mem_of_mem_drop (List.mem_of_mem_take hd))) height
      refine ⟨addLanes exp256Ps sum ((block.drop (8 * k)).take 8), ?_, hlen''.trans hlen', ?_⟩
      · rw [List.range_succ, List.foldl_append, ← hsum]
        rfl
      · rw [htotal', htotal, add_assoc, ← inverseSum_append, ← List.take_add]
        rfl
  obtain ⟨sum, hsum, hlen', htotal⟩ := hrounds 4 le_rfl
  rw [addBlock, ← hsum, htotal, List.take_of_length_le (by omega)]
  exact ⟨hlen', rfl⟩

theorem zeroLanes_eq (h : block.length ≤ 32) : zeroLanes block = block.count 0 := by
  have hpop := popcount_movemask (fun d : ℤ => decide (d = 0)) h
  simp only [decide_eq_true_eq] at hpop
  rw [zeroLanes, hpop, List.count]
  exact List.countP_congr fun d _ => by simp

/-- **The blocks from an aligned address on.** -/
theorem addBlocks_eq (hexp : IsExp exp256Ps) (rounds : ℕ) : ∀ (p : ℕ) (data : List ℤ)
    (lanes : List ℚ) (zeros : ℕ), (0 < rounds → 32 ∣ p) → (∀ d ∈ data, 0 ≤ d ∧ d ≤ 62) →
    lanes.length = 8 → rounds * 32 ≤ data.length → zeros + rounds * 32 < 2 ^ 31 →
    ∃ lanes', addBlocks exp256Ps rounds p data (lanes, zeros) =
        some (lanes', zeros + (data.take (rounds * 32)).count 0) ∧
      lanes'.sum = lanes.sum + inverseSum (data.take (rounds * 32)) := by
  induction rounds with
  | zero =>
    intro p data lanes zeros _ _ _ _ _
    refine ⟨lanes, ?_, ?_⟩
    · rw [addBlocks, Nat.zero_mul, List.take_zero]
      rfl
    · rw [Nat.zero_mul, List.take_zero]
      exact (add_zero _).symm
  | succ rounds ih =>
    intro p data lanes zeros hp hdata hlanes hlen hzeros
    have haligned : 32 ∣ p := hp (Nat.succ_pos rounds)
    rw [Nat.succ_mul] at hlen hzeros
    have hblock : (data.take 32).length = 32 := by
      rw [List.length_take]
      omega
    obtain ⟨hlen', hsum⟩ := addBlock_eq hexp (fun d hd => hdata d (List.mem_of_mem_take hd)) hblock
      hlanes
    have hcount : (data.take 32).count 0 ≤ 32 := List.count_le_length.trans_eq hblock
    have hadd : intAdd zeros (zeroLanes (data.take 32)) = some (zeros + (data.take 32).count 0) := by
      rw [zeroLanes_eq hblock.le]
      exact if_pos (by omega)
    obtain ⟨lanes', hrest, htotal⟩ := ih (p + 32) (data.drop 32)
      (addBlock exp256Ps lanes (data.take 32)) (zeros + (data.take 32).count 0) (by omega)
      (fun d hd => hdata d (List.mem_of_mem_drop hd)) hlen'
      (by rw [List.length_drop]; omega) (by omega)
    have hsplit : data.take ((rounds + 1) * 32) =
        data.take 32 ++ (data.drop 32).take (rounds * 32) := by
      rw [← List.take_add, Nat.succ_mul, Nat.add_comm]
    refine ⟨lanes', ?_, ?_⟩
    · rw [addBlocks, if_neg (by omega), hadd, Option.bind_eq_bind, Option.bind_some, hrest, hsplit,
        List.count_append, Nat.add_assoc]
    · rw [htotal, hsum, hsplit, inverseSum_append, add_assoc]

end Lanes

/-! ## The version with lanes -/

section Version

variable {exp256Ps : ℚ → ℚ} {avx2 : Bool} {p : ℕ} {data : List ℤ}

/-- The entries of the whole blocks. -/
def blockEntries (avx2 : Bool) (data : List ℤ) : List ℤ :=
  if avx2 then data.take (data.length / 32 * 32) else []

/-- The entries of the scalar loop. -/
def scalarEntries (avx2 : Bool) (data : List ℤ) : List ℤ :=
  if avx2 then data.drop (data.length / 32 * 32) else data

theorem blockEntries_append (avx2 : Bool) (data : List ℤ) :
    blockEntries avx2 data ++ scalarEntries avx2 data = data := by
  cases avx2
  · rfl
  · exact List.take_append_drop ..

/-- The loads are aligned, if there are any. -/
def Aligned (avx2 : Bool) (p : ℕ) (data : List ℤ) : Prop :=
  avx2 = true → 32 ≤ data.length → 32 ∣ p

theorem vectorPart_eq (hexp : IsExp exp256Ps) (hp : Aligned avx2 p data)
    (hdata : ∀ d ∈ data, 0 ≤ d ∧ d ≤ 62) (hlen : data.length < 2 ^ 31) :
    vectorPart exp256Ps avx2 p data = some (scalarEntries avx2 data,
      inverseSum (blockEntries avx2 data), (blockEntries avx2 data).count 0) := by
  cases avx2 with
  | false => rfl
  | true =>
    have hle : data.length / 32 * 32 ≤ data.length := Nat.div_mul_le_self ..
    obtain ⟨lanes, hblocks, hsum⟩ := addBlocks_eq hexp (data.length / 32) p data (List.replicate 8 0)
      0 (fun hrounds => hp rfl (by omega)) hdata List.length_replicate hle (by omega)
    rw [List.sum_replicate, nsmul_zero, zero_add] at hsum
    rw [Nat.zero_add] at hblocks
    simp only [vectorPart, if_true, hblocks, Option.bind_eq_bind, Option.bind_some, Option.pure_def,
      ← List.sum_eq_foldl, hsum]
    rfl

theorem vectorPart_of_not_aligned (hp : ¬ Aligned avx2 p data) :
    vectorPart exp256Ps avx2 p data = none := by
  simp only [Aligned, Classical.not_imp] at hp
  obtain ⟨rfl, hlen, hp⟩ := hp
  obtain ⟨rounds, hrounds⟩ : ∃ rounds, data.length / 32 = rounds + 1 :=
    ⟨data.length / 32 - 1, by omega⟩
  have hload : p % 32 ≠ 0 := fun h => hp (Nat.dvd_of_mod_eq_zero h)
  simp only [vectorPart, if_true, hrounds, addBlocks, if_pos hload, Option.bind_eq_bind,
    Option.bind_none]

theorem inverseSum_le {l : List ℤ} (h : ∀ d ∈ l, 0 ≤ d) :
    inverseSum l ≤ (l.map fun d => (2 : ℚ) ^ d).sum :=
  List.sum_le_sum fun d hd => zpow_le_zpow_right₀ (by norm_num) (by have := h d hd; omega)

/-- The terms with the wrong sign add up to more, but for zeros. -/
theorem inverseSum_eq_iff {l : List ℤ} (h : ∀ d ∈ l, 0 ≤ d) :
    (l.map fun d => (2 : ℚ) ^ d).sum = inverseSum l ↔ ∀ d ∈ l, d = 0 := by
  refine ⟨fun hsum => ?_, fun hzero => ?_⟩
  · by_contra hne
    simp only [not_forall] at hne
    obtain ⟨d, hd, hne⟩ := hne
    refine (List.sum_lt_sum _ _ (fun e he => ?_) ⟨d, hd, ?_⟩).ne' hsum
    · exact zpow_le_zpow_right₀ (by norm_num) (by have := h e he; omega)
    · exact zpow_lt_zpow_right₀ (by norm_num) (by have := h d hd; omega)
  · rw [inverseSum]
    congr 1
    exact List.map_congr_left fun d hd => by rw [hzero d hd, neg_zero]

/-- **`calc_harmonic_mean2`** of an aligned array. -/
theorem calcHarmonicMean2_eq (hexp : IsExp exp256Ps) (hp : Aligned avx2 p data) (hne : data ≠ [])
    (hdata : ∀ d ∈ data, 0 ≤ d ∧ d ≤ 62) (hlen : data.length < 2 ^ 31) :
    calcHarmonicMean2 exp256Ps avx2 p data =
      some (1 / (inverseSum (blockEntries avx2 data) +
        ((scalarEntries avx2 data).map fun d => (2 : ℚ) ^ d).sum), data.count 0) := by
  have happend := blockEntries_append avx2 data
  have hlength := congrArg List.length happend
  rw [List.length_append] at hlength
  have hcount : (blockEntries avx2 data).count 0 ≤ (blockEntries avx2 data).length :=
    List.count_le_length
  have hscalar : (scalarEntries avx2 data).foldlM (addEntry fun d => some ((2 : ℚ) ^ d))
      (inverseSum (blockEntries avx2 data), (blockEntries avx2 data).count 0) = _ :=
    foldlM_addEntry (f := fun d => 2 ^ d) (fun _ _ => rfl) _ (by dsimp only; omega)
  rw [← List.count_append, happend] at hscalar
  have hpos : 0 < inverseSum (blockEntries avx2 data) +
      ((scalarEntries avx2 data).map fun d => (2 : ℚ) ^ d).sum := by
    have hle := inverseSum_le fun d hd =>
      (hdata d (happend ▸ List.mem_append_right (blockEntries avx2 data) hd)).1
    have hsum := inverseSum_pos hne
    rw [← happend, inverseSum_append] at hsum
    exact hsum.trans_le (add_le_add_right hle _)
  rw [calcHarmonicMean2, vectorPart_eq hexp hp hdata hlen]
  simp only [Option.bind_eq_bind, Option.bind_some, hscalar]
  exact if_neg hpos.ne'

end Version

/-- **The four versions agree** where the scalar loop of the second one
has only zeros to add, as `2 ^ 0` has no sign to miss; where its loads
are aligned; and where an `int` counts the entries. -/
theorem calcHarmonicMean_iff (exp256Ps : ℚ → ℚ) (hexp : IsExp exp256Ps) (avx2 : Bool) (p : ℕ)
    (data : List ℤ) (hne : data ≠ []) (hdata : ∀ d ∈ data, 0 ≤ d ∧ d ≤ 62) :
    (calcHarmonicMean1 data = some (mean data) ∧
        calcHarmonicMean2 exp256Ps avx2 p data = some (mean data) ∧
        calcHarmonicMean3 data = some (mean data) ∧
        calcHarmonicMean4 data = some (mean data)) ↔
      data.length < 2 ^ 31 ∧ Aligned avx2 p data ∧ ∀ d ∈ scalarEntries avx2 data, d = 0 := by
  have h₁ : calcHarmonicMean1 data = if data.length < 2 ^ 31 then some (mean data) else none :=
    calcHarmonicMean_eq hne fun _ _ => rfl
  have h₃ : calcHarmonicMean3 data = if data.length < 2 ^ 31 then some (mean data) else none :=
    calcHarmonicMean_eq hne fun d hd => inverseShl_eq (hdata d hd).1 (hdata d hd).2
  have h₄ : calcHarmonicMean4 data = if data.length < 2 ^ 31 then some (mean data) else none :=
    calcHarmonicMean_eq hne fun d hd => tablesAt_eq (hdata d hd).1 (hdata d hd).2
  by_cases hlen : data.length < 2 ^ 31
  · rw [if_pos hlen] at h₁ h₃ h₄
    rw [h₁, h₃, h₄, and_iff_right rfl, and_iff_left ⟨rfl, rfl⟩, and_iff_right hlen]
    by_cases hp : Aligned avx2 p data
    · have happend := blockEntries_append avx2 data
      have hsum : inverseSum data =
          inverseSum (blockEntries avx2 data) + inverseSum (scalarEntries avx2 data) := by
        rw [← inverseSum_append, happend]
      have hscalar : ∀ d ∈ scalarEntries avx2 data, 0 ≤ d := fun d hd =>
        (hdata d (happend ▸ List.mem_append_right _ hd)).1
      rw [calcHarmonicMean2_eq hexp hp hne hdata hlen, mean, Option.some.injEq, Prod.mk.injEq,
        and_iff_left rfl, one_div, one_div, inv_inj, hsum, add_right_inj,
        inverseSum_eq_iff hscalar, and_iff_right hp]
    · rw [calcHarmonicMean2, vectorPart_of_not_aligned hp]
      exact iff_of_false (fun h => Option.some_ne_none _ h.symm) fun h => hp h.1
  · rw [if_neg hlen] at h₁
    rw [h₁]
    exact iff_of_false (fun h => Option.some_ne_none _ h.1.symm) fun h => hlen h.1

/-- An exponential on the multiples of `ln2`. -/
def expLn2 (x : ℚ) : ℚ := 2 ^ (x / ln2).num

theorem isExp_expLn2 : IsExp expLn2 := by
  intro d _ _
  have hln2 : ln2 ≠ 0 := by norm_num [ln2]
  rw [expLn2, mul_div_cancel_right₀ _ hln2, zero_sub, ← Int.cast_neg, Rat.num_intCast]

/-- A block of fives, and a zero behind it. -/
theorem calcHarmonicMean_iff_fives :
    calcHarmonicMean1 (List.replicate 32 5 ++ [0]) = some (mean (List.replicate 32 5 ++ [0])) ∧
      calcHarmonicMean2 expLn2 true 64 (List.replicate 32 5 ++ [0]) =
        some (mean (List.replicate 32 5 ++ [0])) ∧
      calcHarmonicMean3 (List.replicate 32 5 ++ [0]) = some (mean (List.replicate 32 5 ++ [0])) ∧
      calcHarmonicMean4 (List.replicate 32 5 ++ [0]) = some (mean (List.replicate 32 5 ++ [0])) :=
  (calcHarmonicMean_iff expLn2 isExp_expLn2 true 64 (List.replicate 32 5 ++ [0]) (by decide)
    (by decide)).2 ⟨by decide, fun _ _ => by decide, by decide⟩

/-- **The sign is missed**: of the single entry `1` the first version makes
`2` and the second one `1 / 2`, with lanes and without. -/
theorem calcHarmonicMean2_one :
    calcHarmonicMean1 [1] = some (2, 0) ∧
      calcHarmonicMean2 expLn2 true 0 [1] = some (1 / 2, 0) ∧
      calcHarmonicMean2 expLn2 false 0 [1] = some (1 / 2, 0) := by
  refine ⟨?_, ?_, ?_⟩
  · norm_num [calcHarmonicMean1, calcHarmonicMean, addEntries, addEntry, intAdd, finish]
  · norm_num [calcHarmonicMean2, vectorPart, addBlocks, addEntry, finish, ← List.sum_eq_foldl]
  · norm_num [calcHarmonicMean2, vectorPart, addEntry, finish]

end Hll

end CppEtudes
