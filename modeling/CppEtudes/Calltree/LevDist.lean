import CppEtudes.Calltree.Model.Name
import CppEtudes.Common.EditDistance

/-!
# `lev_dist`

The rows of the table hold the distances of the prefixes. A prefix is
read from its end, as the loops read the table, and the distance of two
texts does not depend on the direction.
-/

namespace CppEtudes

namespace Calltree

open Levenshtein

/-- A row of the table behind a place: the distances of one prefix `p` to
the prefixes of the other text that go on from `q`. -/
def distRow (p q : Text) : Text → List ℕ
  | [] => [distance p q]
  | c :: b => distance p q :: distRow p (c :: q) b

theorem distRow_eq_cons (p q b : Text) : distRow p q b = distance p q :: (distRow p q b).tail := by
  cases b <;> rfl

theorem distRow_nil (q b : Text) : distRow [] q b = List.range' q.length (b.length + 1) := by
  induction b generalizing q with
  | nil => simp [distRow, distance]
  | cons c b ih => rw [distRow, ih, List.length_cons, distance]; rfl

theorem getLastD_distRow (p q b : Text) (k : ℕ) :
    (distRow p q b).getLastD k = distance p (b.reverse ++ q) := by
  induction b generalizing q k with
  | nil => rfl
  | cons c b ih =>
    rw [distRow, List.getLastD_cons, ih, List.reverse_cons, List.append_assoc, List.singleton_append]

/-- **One row of the loops**: from the distances of a prefix to those of
the next one. -/
theorem levRow_distRow (c : Char) (p q b : Text) :
    levRow c b (distRow p q b) (distance (c :: p) q) = (distRow (c :: p) q b).tail := by
  induction b generalizing q with
  | nil => rfl
  | cons d b ih =>
    have hcell : (if c = d then distance p q
        else 1 + min (min (distance p (d :: q)) (distance (c :: p) q)) (distance p q)) =
          distance (c :: p) (d :: q) := by
      rw [distance]
    rw [distRow, distRow_eq_cons p (d :: q) b, levRow]
    simp only [hcell]
    rw [← distRow_eq_cons, ih, distRow, List.tail_cons, ← distRow_eq_cons]

/-- **All rows**: after a prefix the row holds its distances. -/
theorem foldl_levRow (a p b : Text) :
    a.foldl (fun (d : ℕ × List ℕ) ci => (d.1 + 1, (d.1 + 1) :: levRow ci b d.2 (d.1 + 1)))
        (p.length, distRow p [] b) =
      (p.length + a.length, distRow (a.reverse ++ p) [] b) := by
  induction a generalizing p with
  | nil => rfl
  | cons c a ih =>
    have hrow : (p.length + 1) :: levRow c b (distRow p [] b) (p.length + 1) =
        distRow (c :: p) [] b := by
      have hleft : p.length + 1 = distance (c :: p) [] := by rw [distance_nil_right, List.length_cons]
      rw [hleft, levRow_distRow, ← distRow_eq_cons]
    rw [List.foldl_cons, hrow]
    refine (ih (c :: p)).trans ?_
    simp only [List.length_cons, List.reverse_cons, List.append_assoc, List.singleton_append,
      Prod.mk.injEq, and_true]
    omega

/-- **`lev_dist` is the edit distance of the lower-cased texts.** -/
theorem levDist_eq_distance (a b : Text) : levDist a b = distance (lc a) (lc b) := by
  have hlength : ∀ t : Text, (lc t).length = t.length := fun t => List.length_map _
  unfold levDist
  split_ifs with ha hb
  · rw [ha, lc, List.map_nil, distance, hlength]
  · rw [hb, lc, lc, List.map_nil, distance_nil_right, List.length_map]
  · have hrow : List.range (b.length + 1) = distRow [] [] (lc b) := by
      rw [distRow_nil, hlength, List.length_nil, List.range_eq_range']
    have hfold := foldl_levRow (lc a) [] (lc b)
    rw [List.length_nil] at hfold
    simp only [hrow, hfold, getLastD_distRow, List.append_nil]
    exact distance_reverse (lc a) (lc b)

/-- **`lev_dist` is a distance**: the least number of insertions,
deletions and substitutions between the lower-cased texts, the same both
ways, and no more than by way of a third text. -/
theorem levDist_isLeast (a b c : Text) :
    IsLeast {n | Edits n (lc a) (lc b)} (levDist a b) ∧ levDist a b = levDist b a ∧
      levDist a c ≤ levDist a b + levDist b c := by
  simp only [levDist_eq_distance]
  exact ⟨isLeast_distance _ _, distance_comm _ _, distance_triangle _ _ _⟩

end Calltree

end CppEtudes
