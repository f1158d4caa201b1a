import CppEtudes.Common.Fuel
import CppEtudes.Csvtable.Model.Csvtable
import Mathlib.Data.List.ReduceOption

/-!
# The separators of a table

Normalisation leaves the rows in their order, with a single separator
wherever there was any between two of them. `rowsWithGaps` lists the rows
with the separators before each, and `separated` is the body that should
come out. The two loops that drop separators at an end run until they
find a row, so they end if there is one: for the body that takes a row
behind the header.
-/

namespace CppEtudes

namespace Csvtable

open Calltree (Text isSpace)

section Separators

variable {α : Type} {l : List (Option α)}

/-- The rows, each with the number of separators right before it; `n` were
met already. -/
def rowsWithGaps : ℕ → List (Option α) → List (ℕ × α)
  | _, [] => []
  | n, none :: l => rowsWithGaps (n + 1) l
  | n, some row :: l => (n, row) :: rowsWithGaps 0 l

/-- A row, behind one separator if it had any before it. -/
def behindGap (e : ℕ × α) : List (Option α) := if e.1 = 0 then [some e.2] else [none, some e.2]

/-- **The body that rows with gaps make**: what stands before the first
row is left out. -/
def separated : List (ℕ × α) → List (Option α)
  | [] => []
  | e :: rest => some e.2 :: rest.flatMap behindGap

/-! ## The ends -/

/-- Without a row the loop goes on for ever. -/
theorem removeLeadingUndef_eq_none (fuel : ℕ) (h : ∀ x ∈ l, x = none) :
    removeLeadingUndef fuel l = none := by
  induction fuel generalizing l with
  | zero => rfl
  | succ fuel ih =>
    cases l with
    | nil => exact ih h
    | cons x l =>
      obtain rfl := h x (by simp)
      exact ih fun y hy => h y (by simp [hy])

/-- With one it ends there. -/
theorem removeLeadingUndef_append (n : ℕ) (row : α) (l : List (Option α)) (fuel : ℕ) :
    removeLeadingUndef fuel (List.replicate n none ++ some row :: l) =
      if n < fuel then some (some row :: l) else none := by
  induction n generalizing fuel with
  | zero => cases fuel <;> rfl
  | succ n ih =>
    cases fuel with
    | zero => rfl
    | succ fuel =>
      rw [List.replicate_succ, List.cons_append, removeLeadingUndef, ih]
      simp only [Nat.add_lt_add_iff_right]

/-- From the other end it is the same loop. -/
theorem removeTrailingUndef_eq (fuel : ℕ) (l : List (Option α)) :
    removeTrailingUndef fuel l = (removeLeadingUndef fuel l.reverse).map List.reverse := by
  induction fuel generalizing l with
  | zero => rfl
  | succ fuel ih =>
    rcases List.eq_nil_or_concat l with rfl | ⟨l, x, rfl⟩
    · exact ih []
    · cases x with
      | none => simpa [removeTrailingUndef, removeLeadingUndef] using ih l
      | some row => simp [removeTrailingUndef, removeLeadingUndef]

theorem removeTrailingUndef_append (l : List (Option α)) (row : α) (n : ℕ) {fuel : ℕ}
    (hfuel : n < fuel) :
    removeTrailingUndef fuel (l ++ some row :: List.replicate n none) = some (l ++ [some row]) := by
  have hreverse : (l ++ some row :: List.replicate n none).reverse =
      List.replicate n none ++ some row :: l.reverse := by simp
  rw [removeTrailingUndef_eq, hreverse, removeLeadingUndef_append, if_pos hfuel]
  simp

/-! ## `squeeze_undef` -/

/-- What the rounds of the loop write; `sep` is whether the last element
written is a separator. -/
def squeezed : Bool → List (Option α) → List (Option α)
  | _, [] => []
  | _, some row :: l => some row :: squeezed false l
  | true, none :: l => squeezed true l
  | false, none :: l => none :: squeezed true l

/-- **The loop from `i` on**: the elements up to `k` are written, those
from `i` on are not yet read. -/
theorem squeeze_loop (todo : List (Option α)) : ∀ (array : List (Option α)) (k i : ℕ), k < i →
    k < array.length → array.drop i = todo → ∃ array' k',
      (List.range' i todo.length).foldl squeezeRound (array, k) = (array', k') ∧
      k' < array'.length ∧
      array'.take (k' + 1) = array.take (k + 1) ++ squeezed (array.getD k none).isNone todo := by
  induction todo with
  | nil =>
    intro array k i _ hk _
    exact ⟨array, k, rfl, hk, by simp [squeezed]⟩
  | cons x todo ih =>
    intro array k i hki hk hdrop
    have hlt : i < array.length := by
      by_contra h
      rw [List.drop_eq_nil_of_le (by omega)] at hdrop
      cases hdrop
    rw [List.drop_eq_getElem_cons hlt] at hdrop
    obtain ⟨hx, hrest⟩ := List.cons.inj hdrop
    have hget : array.getD i none = x := by
      rw [List.getD_eq_getElem?_getD, List.getElem?_eq_getElem hlt, hx, Option.getD_some]
    rw [List.length_cons, List.range'_succ, List.foldl_cons]
    -- a round that writes `y`, which is behind what was read
    have hwrite : ∀ y, squeezeRound (array, k) i = (array.set (k + 1) y, k + 1) → ∃ array' k',
        (List.range' (i + 1) todo.length).foldl squeezeRound (squeezeRound (array, k) i) =
          (array', k') ∧ k' < array'.length ∧
        array'.take (k' + 1) = array.take (k + 1) ++ y :: squeezed y.isNone todo := by
      intro y hround
      have hlen : k + 1 < array.length := by omega
      have hdrop' : (array.set (k + 1) y).drop (i + 1) = todo := by
        rw [List.drop_set_of_lt (by omega), hrest]
      have htake' : (array.set (k + 1) y).take (k + 1 + 1) = array.take (k + 1) ++ [y] := by
        rw [List.take_add_one, List.take_set_of_le (by omega)]
        simp [hlen]
      have hget' : (array.set (k + 1) y).getD (k + 1) none = y := by simp [hlen]
      obtain ⟨array', k', hfold, hk', htake⟩ :=
        ih (array.set (k + 1) y) (k + 1) (i + 1) (by omega) (by simpa using hlen) hdrop'
      refine ⟨array', k', by rw [hround, hfold], hk', ?_⟩
      rw [htake, htake', hget', List.append_assoc, List.singleton_append]
    cases x with
    | some row =>
      obtain ⟨array', k', hfold, hk', htake⟩ :=
        hwrite (some row) (by simp only [squeezeRound, hget])
      exact ⟨array', k', hfold, hk', by rw [htake]; simp [squeezed]⟩
    | none =>
      cases hlast : array.getD k none with
      | some last =>
        obtain ⟨array', k', hfold, hk', htake⟩ :=
          hwrite none (by simp only [squeezeRound, hget, hlast])
        exact ⟨array', k', hfold, hk', by rw [htake]; simp [squeezed]⟩
      | none =>
        have hround : squeezeRound (array, k) i = (array, k) := by
          simp only [squeezeRound, hget, hlast]
        obtain ⟨array', k', hfold, hk', htake⟩ := ih array k (i + 1) (by omega) hk hrest
        refine ⟨array', k', by rw [hround, hfold], hk', ?_⟩
        rw [htake, hlast]
        simp [squeezed]

theorem squeezeUndef_cons (row : α) (l : List (Option α)) :
    squeezeUndef (some row :: l) = some row :: squeezed false l := by
  obtain ⟨array', k', hfold, hk', htake⟩ :=
    squeeze_loop l (some row :: l) 0 1 (by omega) (by simp) rfl
  have hslice : (List.range (k' + 1)).map (fun j => array'.getD j none) = array'.take (k' + 1) := by
    refine List.ext_getElem (by simp; omega) fun j hj hj' => ?_
    have hj'' : j < array'.length := by simp at hj'; omega
    simp [hj'']
  simp only [squeezeUndef, List.length_cons, Nat.add_sub_cancel, hfold, hslice, htake]
  rfl

/-- **A list that ends in a row, squeezed**, is its rows behind their
gaps; a gap that is open has written its separator. -/
theorem squeezed_eq (row : α) (l : List (Option α)) :
    squeezed false (l ++ [some row]) = (rowsWithGaps 0 (l ++ [some row])).flatMap behindGap ∧
    ∀ n, none :: squeezed true (l ++ [some row]) =
      (rowsWithGaps (n + 1) (l ++ [some row])).flatMap behindGap := by
  induction l with
  | nil => simp [squeezed, rowsWithGaps, behindGap]
  | cons x l ih =>
    cases x with
    | some x => simp [squeezed, rowsWithGaps, behindGap, ih.1]
    | none =>
      refine ⟨?_, fun n => ?_⟩
      · simpa [squeezed, rowsWithGaps] using ih.2 0
      · simpa [squeezed, rowsWithGaps] using ih.2 (n + 1)

/-! ## Rows with gaps -/

theorem rowsWithGaps_replicate (m n : ℕ) (l : List (Option α)) :
    rowsWithGaps m (List.replicate n none ++ l) = rowsWithGaps (m + n) l := by
  induction n generalizing m with
  | zero => rfl
  | succ n ih =>
    rw [List.replicate_succ, List.cons_append, rowsWithGaps, ih]
    congr 1
    omega

/-- Separators at the end are before no row. -/
theorem rowsWithGaps_append_replicate (m n : ℕ) (l : List (Option α)) :
    rowsWithGaps m (l ++ List.replicate n none) = rowsWithGaps m l := by
  induction l generalizing m with
  | nil => simpa [rowsWithGaps] using rowsWithGaps_replicate m n []
  | cons x l ih =>
    cases x with
    | none => exact ih (m + 1)
    | some row =>
      rw [List.cons_append, rowsWithGaps, rowsWithGaps, ih]

theorem map_snd_rowsWithGaps (n : ℕ) (l : List (Option α)) :
    (rowsWithGaps n l).map Prod.snd = l.reduceOption := by
  induction l generalizing n with
  | nil => rfl
  | cons x l ih =>
    cases x with
    | none => rw [rowsWithGaps, ih, List.reduceOption_cons_of_none]
    | some row => rw [rowsWithGaps, List.map_cons, ih, List.reduceOption_cons_of_some]

theorem eq_none_of_rowsWithGaps_eq_nil {n : ℕ} (h : rowsWithGaps n l = []) : ∀ x ∈ l, x = none := by
  induction l generalizing n with
  | nil => simp
  | cons x l ih =>
    cases x with
    | none =>
      intro y hy
      rcases List.mem_cons.1 hy with rfl | hy
      · rfl
      · exact ih h y hy
    | some row => cases h

theorem rowsWithGaps_map {β : Type} (f : α → β) (n : ℕ) (l : List (Option α)) :
    rowsWithGaps n (l.map (Option.map f)) = (rowsWithGaps n l).map (Prod.map id f) := by
  induction l generalizing n with
  | nil => rfl
  | cons x l ih =>
    cases x with
    | none => exact ih (n + 1)
    | some row =>
      rw [List.map_cons, Option.map_some, rowsWithGaps, rowsWithGaps, ih, List.map_cons,
        Prod.map_apply, id]

theorem separated_map {β : Type} (f : α → β) (rest : List (ℕ × α)) :
    separated (rest.map (Prod.map id f)) = (separated rest).map (Option.map f) := by
  have hgap : ∀ e : ℕ × α, behindGap (Prod.map id f e) = (behindGap e).map (Option.map f) := by
    intro e
    unfold behindGap
    rw [Prod.map_fst, Prod.map_snd, id]
    split_ifs <;> rfl
  cases rest with
  | nil => rfl
  | cons e rest =>
    simp only [List.map_cons, separated, List.flatMap_map, hgap, List.map_flatMap, Prod.map_snd,
      Option.map_some]

/-- The first row with what is before it and behind it. -/
theorem exists_of_rowsWithGaps_eq_cons {m n : ℕ} {row : α} {rest : List (ℕ × α)}
    (h : rowsWithGaps m l = (n, row) :: rest) :
    ∃ k l', l = List.replicate k none ++ some row :: l' ∧ rest = rowsWithGaps 0 l' := by
  induction l generalizing m with
  | nil => cases h
  | cons x l ih =>
    cases x with
    | none =>
      obtain ⟨k, l', rfl, hrest⟩ := ih h
      exact ⟨k + 1, l', rfl, hrest⟩
    | some x =>
      obtain ⟨hfirst, hrest⟩ := List.cons.inj h
      obtain rfl := (Prod.mk.inj hfirst).2
      exact ⟨0, l, rfl, hrest.symm⟩

/-- A list is rows and separators at its end. -/
theorem exists_eq_append_replicate (l : List (Option α)) (row : α) : ∃ l' last n,
    some row :: l = l' ++ some last :: List.replicate n none := by
  induction l using List.reverseRecOn with
  | nil => exact ⟨[], row, 0, rfl⟩
  | append_singleton l x ih =>
    obtain ⟨l', last, n, heq⟩ := ih
    cases x with
    | none =>
      refine ⟨l', last, n + 1, ?_⟩
      rw [← List.cons_append, heq, List.replicate_succ', List.append_assoc, List.cons_append]
    | some x => exact ⟨some row :: l, x, 0, by simp⟩

/-! ## The whole -/

/-- The body behind its first row, without the separators at its end. -/
theorem squeezeUndef_removeTrailingUndef (row : α) (l : List (Option α)) {fuel : ℕ}
    (hfuel : l.length < fuel) : ∃ body, removeTrailingUndef fuel (some row :: l) = some body ∧
      squeezeUndef body = some row :: (rowsWithGaps 0 l).flatMap behindGap := by
  obtain ⟨l', last, n, heq⟩ := exists_eq_append_replicate l row
  have hlen := congrArg List.length heq
  simp only [List.length_append, List.length_cons, List.length_replicate] at hlen
  refine ⟨l' ++ [some last], by rw [heq, removeTrailingUndef_append _ _ _ (by omega)], ?_⟩
  cases l' with
  | nil =>
    -- the first row is the last one
    obtain ⟨hrow, htail⟩ := List.cons.inj heq
    obtain rfl := Option.some.inj hrow
    have hgaps := rowsWithGaps_append_replicate 0 n ([] : List (Option α))
    rw [List.nil_append] at hgaps
    rw [List.nil_append, squeezeUndef_cons, htail, hgaps]
    rfl
  | cons x inner =>
    obtain ⟨rfl, htail⟩ := List.cons.inj heq
    have hsplit : l = inner ++ [some last] ++ List.replicate n none := by simpa using htail
    rw [List.cons_append, squeezeUndef_cons, (squeezed_eq last inner).1, hsplit,
      rowsWithGaps_append_replicate]

/-- **With a row behind the header, the body is as it should be.** -/
theorem normalise_eq {gap : ℕ} {hdr : α} {rest : List (ℕ × α)}
    (h : rowsWithGaps 0 l = (gap, hdr) :: rest) (hrest : rest ≠ []) {fuel : ℕ}
    (hfuel : l.length < fuel) : normalise fuel l = some (some hdr, separated rest) := by
  obtain ⟨k, body, rfl, hbody⟩ := exists_of_rowsWithGaps_eq_cons h
  obtain ⟨⟨gap', row⟩, rest, rfl⟩ := List.exists_cons_of_ne_nil hrest
  obtain ⟨k', body, rfl, hbody'⟩ := exists_of_rowsWithGaps_eq_cons hbody.symm
  simp only [List.length_append, List.length_cons, List.length_replicate] at hfuel
  obtain ⟨body', htrailing, hsqueeze⟩ :=
    squeezeUndef_removeTrailingUndef row body (show body.length < fuel by omega)
  rw [← hbody'] at hsqueeze
  simp only [normalise, removeLeadingUndef_append, if_pos (show k < fuel by omega),
    if_pos (show k' < fuel by omega), List.tail_cons, htrailing, hsqueeze, Option.bind_eq_bind,
    Option.bind_some]
  rfl

/-- Without one it does not end. -/
theorem normalise_eq_none (h : (rowsWithGaps 0 l).length < 2) (fuel : ℕ) :
    normalise fuel l = none := by
  cases hgaps : rowsWithGaps 0 l with
  | nil =>
    rw [normalise, removeLeadingUndef_eq_none fuel (eq_none_of_rowsWithGaps_eq_nil hgaps)]
    rfl
  | cons e rest =>
    have hrest : rest = [] := by
      rw [hgaps, List.length_cons] at h
      exact List.length_eq_zero_iff.1 (by omega)
    obtain ⟨k, body, rfl, hbody⟩ := exists_of_rowsWithGaps_eq_cons hgaps
    have hbody' := removeLeadingUndef_eq_none fuel
      (eq_none_of_rowsWithGaps_eq_nil (hbody.symm.trans hrest))
    rw [normalise, removeLeadingUndef_append]
    split_ifs
    · simp only [Option.bind_eq_bind, Option.bind_some, List.tail_cons, hbody', Option.bind_none]
    · rfl

/-- **What normalisation is for**: the first row is the header, and the
rows behind it are the body. -/
def Normalised (data : List (Option α)) : Prop :=
  ∃ gap hdr rest, rowsWithGaps 0 data = (gap, hdr) :: rest ∧
    Returns (fun fuel => normalise fuel data) (some hdr, separated rest)

theorem normalised_iff_length {data : List (Option α)} :
    Normalised data ↔ 2 ≤ data.reduceOption.length := by
  rw [← map_snd_rowsWithGaps 0 data, List.length_map]
  constructor
  · rintro ⟨gap, hdr, rest, hgaps, n, hreturns⟩
    by_contra hfew
    have hnone := normalise_eq_none (show (rowsWithGaps 0 data).length < 2 by omega) n
    exact Option.some_ne_none _ ((hreturns n (Nat.le_refl n)).symm.trans hnone)
  · intro h
    have hpos : 0 < (rowsWithGaps 0 data).length := by omega
    obtain ⟨⟨gap, hdr⟩, rest, hgaps⟩ := List.exists_cons_of_ne_nil (List.ne_nil_of_length_pos hpos)
    refine ⟨gap, hdr, rest, hgaps, data.length + 1, fun fuel hfuel => ?_⟩
    refine normalise_eq hgaps (fun hrest => ?_) hfuel
    rw [hgaps, hrest] at h
    simp at h

end Separators

/-! ## The rows of an input -/

/-- The lines of the input that are not blank. -/
def filledLines (input : Text) : List Text := (readLines input).filter fun line => !line.all isSpace

theorem reduceOption_map_parse {β : Type} (f : Row → β) (input : Text) :
    ((parse input).map (Option.map f)).reduceOption =
      (filledLines input).map fun line => f (splitCells (trim line)) := by
  unfold parse filledLines
  induction readLines input with
  | nil => rfl
  | cons line lines ih =>
    cases hblank : line.all isSpace with
    | true => simpa [parseLine, hblank] using ih
    | false => simpa [parseLine, hblank] using ih

/-- **The rows of an input are normalised, whatever is made of each, if
and only if two of its lines are not blank.** -/
theorem normalised_parse_iff {β : Type} (f : Row → β) (input : Text) :
    Normalised ((parse input).map (Option.map f)) ↔ 2 ≤ (filledLines input).length := by
  rw [normalised_iff_length, reduceOption_map_parse, List.length_map]

/-- A header alone: the loop over the body finds no row. -/
theorem normalise_headerOnly : filledLines ['a', ',', 'b', '\n'] ≠ [] ∧
    ∀ fuel, normalise fuel (parse ['a', ',', 'b', '\n']) = none :=
  ⟨by decide, fun fuel => normalise_eq_none (by decide) fuel⟩

end Csvtable

end CppEtudes
