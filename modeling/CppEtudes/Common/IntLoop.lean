import CppEtudes.Common.Machine

/-!
# Loops with an `int` counter

A loop over an array that counts in an `int` and compares with a
`size_t`. The counter is incremented behind every element, so it
overflows behind an array of `2 ^ 31` elements, and the loop has no
result.
-/

namespace CppEtudes

namespace IntLoop

variable {α σ : Type}

/-- The rounds from the value `i` of the counter on. -/
def forEachFrom (step : α → σ → Option σ) : List α → ℕ → σ → Option σ
  | [], _, s => some s
  | x :: xs, i, s => do
    let s ← step x s
    let i ← Machine.intAdd i 1
    forEachFrom step xs i s

/-- `for (auto i = 0; i < n; ++i)` over the `n` elements of `xs`. -/
def forEach (xs : List α) (step : α → σ → Option σ) (s : σ) : Option σ := forEachFrom step xs 0 s

theorem forEachFrom_eq (step : α → σ → Option σ) (xs : List α) {i : ℕ} (hi : i < 2147483648)
    (s : σ) :
    forEachFrom step xs i s =
      if i + xs.length < 2147483648 then xs.foldlM (fun s x => step x s) s else none := by
  induction xs generalizing i s with
  | nil => rw [forEachFrom, if_pos (by simpa using hi)]; rfl
  | cons x xs ih =>
    rw [forEachFrom, List.foldlM_cons, List.length_cons]
    rcases step x s with - | s'
    · simp
    · simp only [Option.bind_eq_bind, Option.bind_some, Machine.intAdd]
      rcases Nat.lt_or_ge (i + 1) 2147483648 with hnext | hlast
      · rw [if_pos hnext, Option.bind_some, ih hnext, Nat.add_assoc, Nat.add_comm 1]
      · rw [if_neg (Nat.not_lt.2 hlast), if_neg (by omega), Option.bind_none]

/-- **The loop sees every element, and has no result where these are more
than its counter can count.** -/
theorem forEach_eq (step : α → σ → Option σ) (xs : List α) (s : σ) :
    forEach xs step s =
      if xs.length < 2147483648 then xs.foldlM (fun s x => step x s) s else none := by
  rw [forEach, forEachFrom_eq step xs (by omega), Nat.zero_add]

end IntLoop

end CppEtudes
