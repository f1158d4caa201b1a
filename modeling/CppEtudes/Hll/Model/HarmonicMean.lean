import CppEtudes.StringFunctions.Model.Substr
import Mathlib.Algebra.Field.Rat

/-!
# Harmonic means

The four versions of `calc_harmonic_mean`. Floats are rational numbers,
and the function `exp256_ps` is a parameter. An overflow of an `int`, an
entry that a version cannot take, and an aligned load from an address
that is not aligned have no result.
-/

namespace CppEtudes

namespace Hll

open Machine StringFunctions

/-- One entry: `harmonic_mean += term` and, for a zero, `++num_zeros`. -/
def addEntry (term : ℤ → Option ℚ) (sums : ℚ × ℕ) (d : ℤ) : Option (ℚ × ℕ) := do
  let t ← term d
  let numZeros ← if d = 0 then intAdd sums.2 1 else some sums.2
  return (sums.1 + t, numZeros)

/-- The loop over the entries, with its counter `i`. -/
def addEntries (term : ℤ → Option ℚ) : List ℤ → ℕ → ℚ × ℕ → Option (ℚ × ℕ)
  | [], _, sums => some sums
  | d :: data, i, sums => do
    let sums ← addEntry term sums d
    let i ← intAdd i 1
    addEntries term data i sums

/-- The pair that is returned; `1.0f / 0.0f` is no rational number. -/
def finish (sums : ℚ × ℕ) : Option (ℚ × ℕ) :=
  if sums.1 = 0 then none else some (1 / sums.1, sums.2)

/-- The versions that have one loop. -/
def calcHarmonicMean (term : ℤ → Option ℚ) (data : List ℤ) : Option (ℚ × ℕ) :=
  (addEntries term data 0 (0, 0)).bind finish

/-- **`calc_harmonic_mean1`**: `powf(2.0f, -data[i])`. -/
def calcHarmonicMean1 (data : List ℤ) : Option (ℚ × ℕ) :=
  calcHarmonicMean (fun d => some (2 ^ (-d))) data

/-- `1L << d`. -/
def oneShl (d : ℤ) : Option ℤ :=
  if 0 ≤ d ∧ d < 63 then some (2 ^ d.toNat) else if d = 63 then some (-2 ^ 63) else none

/-- `1.0f / static_cast<float>(1L << d)`. -/
def inverseShl (d : ℤ) : Option ℚ := (oneShl d).map fun (n : ℤ) => 1 / (n : ℚ)

/-- **`calc_harmonic_mean3`.** -/
def calcHarmonicMean3 (data : List ℤ) : Option (ℚ × ℕ) := calcHarmonicMean inverseShl data

/-- `tables`; its last entry is a shift by 64. -/
def tables : List (Option ℚ) := (List.range 65).map fun (k : ℕ) => inverseShl k

/-- `tables[d]`. -/
def tablesAt (d : ℤ) : Option ℚ := if 0 ≤ d then tables[d.toNat]?.join else none

/-- **`calc_harmonic_mean4`.** -/
def calcHarmonicMean4 (data : List ℤ) : Option (ℚ × ℕ) := calcHarmonicMean tablesAt data

/-! ## Registers -/

/-- The constant `ln2`. -/
def ln2 : ℚ := 69314718055995 / 10 ^ 14

/-- `_mm_popcnt_u32` of the lanes that are zero. -/
def zeroLanes (block : List ℤ) : ℕ :=
  builtinPopcount (movemask (block.map fun d => if d = 0 then 0xFF else 0))

/-- Eight entries are added to the lanes, the first one to the last. -/
def addLanes (exp256Ps : ℚ → ℚ) (sumf32 : List ℚ) (pp : List ℤ) : List ℚ :=
  let x := pp.reverse
  List.zipWith (· + ·) (x.map fun (d : ℤ) => exp256Ps ((0 - (d : ℚ)) * ln2)) sumf32

/-- The inner loop. -/
def addBlock (exp256Ps : ℚ → ℚ) (sumf32 : List ℚ) (block : List ℤ) : List ℚ :=
  (List.range 4).foldl (fun sum i => addLanes exp256Ps sum ((block.drop (8 * i)).take 8)) sumf32

/-- The loop over the blocks, from the address `p` on. -/
def addBlocks (exp256Ps : ℚ → ℚ) : ℕ → ℕ → List ℤ → List ℚ × ℕ → Option (List ℚ × ℕ)
  | 0, _, _, sums => some sums
  | rounds + 1, p, data, (sumf32, numZeros) => do
    -- `_mm256_load_si256`
    if p % 32 ≠ 0 then none
    else
      let numZeros ← intAdd numZeros (zeroLanes (data.take 32))
      addBlocks exp256Ps rounds (p + 32) (data.drop 32)
        (addBlock exp256Ps sumf32 (data.take 32), numZeros)

/-- The part of the array before the scalar loop: what is left of the
array, and the sums. -/
def vectorPart (exp256Ps : ℚ → ℚ) (avx2 : Bool) (p : ℕ) (data : List ℤ) :
    Option (List ℤ × ℚ × ℕ) :=
  if avx2 then do
    let rounds := data.length / 32
    let (sumf32, numZeros) ← addBlocks exp256Ps rounds p data (List.replicate 8 0, 0)
    return (data.drop (rounds * 32), sumf32.foldl (· + ·) 0, numZeros)
  else some (data, 0, 0)

/-- **`calc_harmonic_mean2`** of an array at the address `p`. The term of
its scalar loop is `powf(2.0f, p[0])`. -/
def calcHarmonicMean2 (exp256Ps : ℚ → ℚ) (avx2 : Bool) (p : ℕ) (data : List ℤ) :
    Option (ℚ × ℕ) := do
  let (rest, sums) ← vectorPart exp256Ps avx2 p data
  let sums ← rest.foldlM (addEntry fun d => some (2 ^ d)) sums
  finish sums

end Hll

end CppEtudes
