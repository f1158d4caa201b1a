import CppEtudes.Common.Fuel
import CppEtudes.Concurrent.Model.FreeSlots
import Mathlib.Data.List.FinRange
import Mathlib.Data.List.Infix
import Mathlib.Data.List.Pairwise

/-!
# What `free_slots` releases

The loop has one cursor for each level, which stays at its end once an
array of the level is done. So only the first array of a level has the
arrays below it released; the others are deleted alone, unless they are
of the last level but one, whose arrays release theirs without a cursor
(`released`, `leads_released`). Nothing is released twice. All arrays are
released where no other array of an inner level has arrays below it, and
so in every tree of at most three levels.
-/

namespace CppEtudes

namespace Concurrent

variable {k : ℕ}

/-! ## The arrays of a tree -/

/-- The arrays below an array from an index on, with their indices. -/
def arraysFrom (t : SlotTree (k + 1)) (i : ℕ) : List (ℕ × SlotTree k) :=
  ((List.finRange slotIndexNr).drop i).filterMap fun j => (t j).map fun sub => (j.val, sub)

/-- An array of a tree, by the indices on the way to it. -/
def Allocated : (k : ℕ) → SlotTree k → List ℕ → Prop
  | _, _, [] => True
  | 0, _, _ :: _ => False
  | k + 1, t, i :: q => ∃ sub, (i, sub) ∈ arraysFrom t 0 ∧ Allocated k sub q

/-- The first of a list is marked. -/
def markFirst {α : Type} : List α → List (Bool × α)
  | [] => []
  | a :: l => (true, a) :: l.map fun b => (false, b)

/-- **What is released** with an array, which is or is not the first of
its level. -/
def released : (k : ℕ) → Bool → List ℕ → SlotTree k → List (List ℕ)
  | 0, _, p, _ => [p]
  | k + 1, first, p, t =>
    (if first ∨ k = 0 then
      (markFirst (arraysFrom t 0)).flatMap fun c => released k c.1 (p ++ [c.2.1]) c.2.2
    else []) ++ [p]

/-- **Only the first array of an inner level** has arrays below it. -/
def OnlyFirst : (k : ℕ) → Bool → SlotTree k → Prop
  | 0, _, _ => True
  | k + 1, first, t =>
    if first ∨ k = 0 then ∀ c ∈ markFirst (arraysFrom t 0), OnlyFirst k c.1 c.2.2
    else ∀ i, t i = none

theorem map_snd_markFirst {α : Type} (l : List α) : (markFirst l).map Prod.snd = l := by
  rcases l with - | ⟨a, l⟩
  · rfl
  · simp [markFirst, Function.comp_def]

theorem mem_of_mem_markFirst {α : Type} {l : List α} {c : Bool × α} (h : c ∈ markFirst l) :
    c.2 ∈ l := by
  rw [← map_snd_markFirst l]
  exact List.mem_map_of_mem h

theorem exists_mem_markFirst {α : Type} {l : List α} {a : α} (h : a ∈ l) :
    ∃ first, (first, a) ∈ markFirst l := by
  rw [← map_snd_markFirst l, List.mem_map] at h
  obtain ⟨⟨first, b⟩, hc, rfl⟩ := h
  exact ⟨first, hc⟩

theorem mem_arraysFrom_zero {t : SlotTree (k + 1)} {i : ℕ} {sub : SlotTree k} :
    (i, sub) ∈ arraysFrom t 0 ↔ ∃ h : i < slotIndexNr, t ⟨i, h⟩ = some sub := by
  simp only [arraysFrom, List.drop_zero, List.mem_filterMap, List.mem_finRange, true_and,
    Option.map_eq_some_iff, Prod.mk.injEq]
  constructor
  · rintro ⟨j, sub', hsub, rfl, rfl⟩
    exact ⟨j.isLt, hsub⟩
  · rintro ⟨h, hsub⟩
    exact ⟨⟨i, h⟩, sub, hsub, rfl, rfl⟩

/-- Their indices ascend. -/
theorem pairwise_arraysFrom (t : SlotTree (k + 1)) (i : ℕ) :
    (arraysFrom t i).Pairwise fun a b => a.1 ≠ b.1 := by
  refine List.Pairwise.filterMap _ (fun a b hab x hx y hy => ?_)
    ((List.nodup_finRange slotIndexNr).drop (i := i))
  obtain ⟨_, -, rfl⟩ := Option.map_eq_some_iff.1 hx
  obtain ⟨_, -, rfl⟩ := Option.map_eq_some_iff.1 hy
  exact fun heq => hab (Fin.ext heq)

/-! ## The rounds of the loop -/

section Rounds

variable {levelNr : ℕ} {idx : ℕ → ℕ} {p : List ℕ} {rest : List StackEntry} {out : List (List ℕ)}

/-- What an index of the stack's top leads to. -/
theorem child_of_lt (t : SlotTree (k + 1)) {i : ℕ} (h : i < slotIndexNr) :
    StackEntry.child ⟨p, k + 1, t⟩ i = (t ⟨i, h⟩).map fun sub => ⟨p ++ [i], k, sub⟩ := dif_pos h

theorem child_of_ge (t : SlotTree (k + 1)) {i : ℕ} (h : slotIndexNr ≤ i) :
    StackEntry.child ⟨p, k + 1, t⟩ i = none := dif_neg (Nat.not_lt.2 h)

theorem arraysFrom_eq_nil (t : SlotTree (k + 1)) {i : ℕ} (h : slotIndexNr ≤ i) :
    arraysFrom t i = [] := by
  rw [arraysFrom, List.drop_eq_nil_of_le (by rw [List.length_finRange]; exact h)]
  rfl

theorem arraysFrom_of_lt (t : SlotTree (k + 1)) {i : ℕ} (h : i < slotIndexNr) :
    arraysFrom t i = ((t ⟨i, h⟩).map fun sub => (i, sub)).toList ++ arraysFrom t (i + 1) := by
  have hlength : i < (List.finRange slotIndexNr).length := by rwa [List.length_finRange]
  rw [arraysFrom, arraysFrom, List.drop_eq_getElem_cons hlength, List.getElem_finRange,
    List.filterMap_cons]
  rcases ht : t ⟨i, h⟩ with - | sub
  · simp [ht]
  · simp [ht]

/-- **The scan** stops at the next array, or at the end. -/
theorem scan_spec (t : SlotTree (k + 1)) (rounds : ℕ) : ∀ {i : ℕ}, i ≤ slotIndexNr →
    slotIndexNr ≤ i + rounds →
    (arraysFrom t i = [] ∧ StackEntry.scan ⟨p, k + 1, t⟩ rounds i = slotIndexNr) ∨
    ∃ sub, arraysFrom t i = (StackEntry.scan ⟨p, k + 1, t⟩ rounds i, sub) ::
        arraysFrom t (StackEntry.scan ⟨p, k + 1, t⟩ rounds i + 1) ∧
      StackEntry.child ⟨p, k + 1, t⟩ (StackEntry.scan ⟨p, k + 1, t⟩ rounds i) =
        some ⟨p ++ [StackEntry.scan ⟨p, k + 1, t⟩ rounds i], k, sub⟩ ∧
      StackEntry.scan ⟨p, k + 1, t⟩ rounds i < slotIndexNr := by
  induction rounds with
  | zero =>
    intro i hi hrounds
    obtain rfl : i = slotIndexNr := by omega
    exact .inl ⟨arraysFrom_eq_nil t (Nat.le_refl _), rfl⟩
  | succ rounds ih =>
    intro i hi hrounds
    rcases Nat.lt_or_eq_of_le hi with hlt | rfl
    · have harrays := arraysFrom_of_lt t hlt
      have hchild := child_of_lt (p := p) t hlt
      rcases hsub : t ⟨i, hlt⟩ with - | sub
      · rw [hsub, Option.map_none, Option.toList_none, List.nil_append] at harrays
        rw [hsub] at hchild
        have hscan : StackEntry.scan ⟨p, k + 1, t⟩ (rounds + 1) i =
            StackEntry.scan ⟨p, k + 1, t⟩ rounds (i + 1) := by
          rw [StackEntry.scan, if_pos ⟨hlt, by rw [hchild]; rfl⟩]
        rw [hscan, harrays]
        exact ih (by omega) (by omega)
      · rw [hsub, Option.map_some, Option.toList_some, List.singleton_append] at harrays
        rw [hsub] at hchild
        have hscan : StackEntry.scan ⟨p, k + 1, t⟩ (rounds + 1) i = i := by
          rw [StackEntry.scan, if_neg fun hnull => by simp [hchild] at hnull]
        rw [hscan]
        exact .inr ⟨sub, harrays, hchild, hlt⟩
    · have hscan : StackEntry.scan ⟨p, k + 1, t⟩ (rounds + 1) slotIndexNr = slotIndexNr := by
        rw [StackEntry.scan, if_neg fun hlt => Nat.lt_irrefl _ hlt.1]
      exact .inl ⟨arraysFrom_eq_nil t (Nat.le_refl _), hscan⟩

theorem leads_round (levelNr : ℕ) (idx : ℕ → ℕ) (top : StackEntry) (rest : List StackEntry)
    (out : List (List ℕ)) : Leads (freeLoop levelNr) ⟨idx, top :: rest, out⟩
      (freeRound levelNr ⟨idx, top :: rest, out⟩ top rest) := .single fun _ => rfl

/-- **A round above the last level but one**: the next array from the
cursor on is pushed, or the top is deleted. -/
theorem leads_scan (hlevel : rest.length + 2 < levelNr) (hidx : idx rest.length ≤ slotIndexNr)
    (p : List ℕ) (t : SlotTree (k + 1)) (out : List (List ℕ)) :
    (arraysFrom t (idx rest.length) = [] ∧
      Leads (freeLoop levelNr) ⟨idx, ⟨p, k + 1, t⟩ :: rest, out⟩
        ⟨Function.update idx rest.length slotIndexNr, rest, out ++ [p]⟩) ∨
    ∃ j sub, arraysFrom t (idx rest.length) = (j, sub) :: arraysFrom t (j + 1) ∧ j < slotIndexNr ∧
      Leads (freeLoop levelNr) ⟨idx, ⟨p, k + 1, t⟩ :: rest, out⟩
        ⟨Function.update idx rest.length (j + 1),
          ⟨p ++ [j], k, sub⟩ :: ⟨p, k + 1, t⟩ :: rest, out⟩ := by
  have hround := leads_round levelNr idx ⟨p, k + 1, t⟩ rest out
  rw [freeRound, if_pos hlevel] at hround
  dsimp only at hround
  rcases scan_spec (p := p) t slotIndexNr hidx (by omega) with
    ⟨harrays, hscan⟩ | ⟨sub, harrays, hchild, hlt⟩
  · rw [hscan, child_of_ge t (Nat.le_refl _)] at hround
    exact .inl ⟨harrays, hround⟩
  · rw [hchild] at hround
    exact .inr ⟨_, sub, harrays, hlt, hround⟩

/-- **The last level but one**: an array goes with the arrays below it. -/
theorem leads_last (hlevel : rest.length + 2 = levelNr) (first : Bool) (t : SlotTree 1) :
    Leads (freeLoop levelNr) ⟨idx, ⟨p, 1, t⟩ :: rest, out⟩
      ⟨idx, rest, out ++ released 1 first p t⟩ := by
  have hpaths : ((List.range slotIndexNr).filterMap (StackEntry.child ⟨p, 1, t⟩)).map
      StackEntry.path =
        (markFirst (arraysFrom t 0)).flatMap fun c => released 0 c.1 (p ++ [c.2.1]) c.2.2 := by
    have hmarks :
        ((markFirst (arraysFrom t 0)).flatMap fun c => released 0 c.1 (p ++ [c.2.1]) c.2.2) =
          ((markFirst (arraysFrom t 0)).map Prod.snd).map fun c => p ++ [c.1] := by
      rw [List.map_map, List.map_eq_flatMap]
      rfl
    rw [hmarks, map_snd_markFirst, arraysFrom, List.drop_zero, List.map_filterMap,
      List.map_filterMap, ← List.map_coe_finRange_eq_range, List.filterMap_map]
    refine List.filterMap_congr fun j _ => ?_
    rw [Function.comp_apply, child_of_lt t j.isLt]
    rcases t j with - | sub <;> rfl
  have hround := leads_round levelNr idx ⟨p, 1, t⟩ rest out
  rw [freeRound, if_neg (by omega), hpaths, List.append_assoc] at hround
  rwa [released, if_pos (Or.inr rfl)]

/-- **An array that is not the first of its level**, whose cursor is at
its end. -/
theorem leads_other (hk : 0 < k) (hlevel : rest.length + k + 1 = levelNr)
    (hend : 2 ≤ k → idx rest.length = slotIndexNr) (p : List ℕ) (t : SlotTree k)
    (out : List (List ℕ)) :
    Leads (freeLoop levelNr) ⟨idx, ⟨p, k, t⟩ :: rest, out⟩
      ⟨idx, rest, out ++ released k false p t⟩ := by
  rcases k with - | - | k
  · omega
  · exact leads_last (by omega) false t
  · have hidx := hend (by omega)
    have harrays : arraysFrom t (idx rest.length) = [] := arraysFrom_eq_nil t hidx.ge
    rw [released, if_neg (by simp), List.nil_append]
    have hlevel' : rest.length + 2 < levelNr := by omega
    rcases leads_scan hlevel' hidx.le p t out with ⟨-, h⟩ | ⟨j, sub, h, -⟩
    · rwa [← hidx, Function.update_eq_self] at h
    · exact nomatch harrays.symm.trans h

/-- **The arrays below, from the cursor on**, where the first of their
level is done. -/
theorem leads_others (hk : 0 < k) (hlevel : rest.length + k + 2 = levelNr) (t : SlotTree (k + 1))
    (l : List (ℕ × SlotTree k)) : ∀ (idx : ℕ → ℕ) (out : List (List ℕ)),
      idx rest.length ≤ slotIndexNr → arraysFrom t (idx rest.length) = l →
      (2 ≤ k → idx (rest.length + 1) = slotIndexNr) →
      Leads (freeLoop levelNr) ⟨idx, ⟨p, k + 1, t⟩ :: rest, out⟩
        ⟨Function.update idx rest.length slotIndexNr, rest,
          out ++ (l.flatMap (fun c => released k false (p ++ [c.1]) c.2) ++ [p])⟩ := by
  have hlevel' : rest.length + 2 < levelNr := by omega
  induction l with
  | nil =>
    intro idx out hidx hl _
    rcases leads_scan hlevel' hidx p t out with ⟨-, h⟩ | ⟨j, sub, h, -⟩
    · exact h
    · exact nomatch hl.symm.trans h
  | cons c l ih =>
    intro idx out hidx hl hend
    rcases leads_scan hlevel' hidx p t out with ⟨h, -⟩ | ⟨j, sub, h, hj, hpush⟩
    · exact nomatch hl.symm.trans h
    · obtain ⟨rfl, hrest⟩ := List.cons.inj (hl.symm.trans h)
      have hcursor : Function.update idx rest.length (j + 1) rest.length = j + 1 :=
        Function.update_self ..
      have hend' : 2 ≤ k →
          Function.update idx rest.length (j + 1) (rest.length + 1) = slotIndexNr := fun h2 =>
        (Function.update_of_ne (Nat.succ_ne_self _) ..).trans (hend h2)
      have hlength : (⟨p, k + 1, t⟩ :: rest : List StackEntry).length + k + 1 = levelNr := by
        rw [List.length_cons]
        omega
      have hother := leads_other hk hlength hend' (p ++ [j]) sub out
      have hothers := ih (Function.update idx rest.length (j + 1))
        (out ++ released k false (p ++ [j]) sub) (by rw [hcursor]; exact hj)
        (by rw [hcursor, hrest]) hend'
      rw [Function.update_idem, List.append_assoc, ← List.append_assoc (released ..)] at hothers
      exact (hpush.trans hother).trans hothers

/-- **The first array of its level**, with all cursors from there on at
the start. -/
theorem leads_first (k : ℕ) : 0 < k → ∀ (rest : List StackEntry) (idx : ℕ → ℕ) (p : List ℕ)
    (t : SlotTree k) (out : List (List ℕ)), rest.length + k + 1 = levelNr →
    (∀ j, rest.length ≤ j → idx j = 0) →
    ∃ idx', (∀ j < rest.length, idx' j = idx j) ∧ (2 ≤ k → idx' rest.length = slotIndexNr) ∧
      Leads (freeLoop levelNr) ⟨idx, ⟨p, k, t⟩ :: rest, out⟩
        ⟨idx', rest, out ++ released k true p t⟩ := by
  induction k with
  | zero => exact fun h => absurd h (Nat.lt_irrefl 0)
  | succ k ih =>
    intro _ rest idx p t out hlevel hzero
    rcases Nat.eq_zero_or_pos k with rfl | hk
    · exact ⟨idx, fun _ _ => rfl, fun h => by omega, leads_last (by omega) true t⟩
    have hidx : idx rest.length = 0 := hzero _ (Nat.le_refl _)
    have hbefore (i : ℕ) : ∀ j < rest.length, Function.update idx rest.length i j = idx j :=
      fun j hj => Function.update_of_ne (Nat.ne_of_lt hj) ..
    rw [released, if_pos (Or.inl rfl)]
    have hlevel' : rest.length + 2 < levelNr := by omega
    rcases leads_scan hlevel' (hidx ▸ Nat.zero_le _) p t out with
      ⟨h, hpop⟩ | ⟨j, sub, h, hj, hpush⟩
    · rw [hidx] at h
      rw [h]
      exact ⟨_, hbefore slotIndexNr, fun _ => Function.update_self .., hpop⟩
    · -- the first array below, then the others
      obtain ⟨idx₁, hsame, hend, hfirst⟩ := ih hk (⟨p, k + 1, t⟩ :: rest)
        (Function.update idx rest.length (j + 1)) (p ++ [j]) sub out
        (by rw [List.length_cons]; omega) fun i hi => by
          rw [List.length_cons] at hi
          rw [Function.update_of_ne (by omega), hzero i (by omega)]
      have hcursor : idx₁ rest.length = j + 1 :=
        (hsame _ (Nat.lt_succ_self _)).trans (Function.update_self ..)
      have hothers := leads_others (p := p) hk (by omega) t (arraysFrom t (j + 1)) idx₁
        (out ++ released k true (p ++ [j]) sub) (hcursor ▸ hj) (by rw [hcursor]) hend
      refine ⟨Function.update idx₁ rest.length slotIndexNr, fun i hi => ?_,
        fun _ => Function.update_self .., (hpush.trans hfirst).trans ?_⟩
      · rw [Function.update_of_ne (Nat.ne_of_lt hi), hsame i (Nat.lt_succ_of_lt hi),
          hbefore _ i hi]
      · rw [hidx] at h
        rw [h, markFirst, List.flatMap_cons, List.flatMap_map, List.append_assoc,
          ← List.append_assoc out]
        exact hothers

/-- **`free_slots` returns**, with the arrays it has released. -/
theorem returns_freeSlots (t : SlotTree k) :
    Returns (fun fuel => freeSlots fuel (some t)) (released k true [] t) := by
  rcases Nat.eq_zero_or_pos k with rfl | hk
  · exact ⟨0, fun fuel _ => rfl⟩
  · have hlevel : ([] : List StackEntry).length + k + 1 = k + 1 := by
      rw [List.length_nil, Nat.zero_add]
    obtain ⟨idx, -, -, hleads⟩ := leads_first k hk [] (fun _ => 0) [] t [] hlevel fun _ _ => rfl
    have hreturns := hleads.returns (x := released k true [] t) ⟨1, fun fuel hfuel => by
      obtain ⟨n, rfl⟩ : ∃ n, fuel = n + 1 := ⟨fuel - 1, by omega⟩
      rfl⟩
    obtain ⟨n, hn⟩ := hreturns
    refine ⟨n, fun fuel hfuel => ?_⟩
    dsimp only [freeSlots]
    rw [if_neg (by omega)]
    exact hn fuel hfuel

end Rounds

/-! ## What is released -/

variable {p : List ℕ} {first : Bool}

/-- Only arrays of the tree are released. -/
theorem allocated_of_mem_released {q : List ℕ} (k : ℕ) : ∀ {first : Bool} {p : List ℕ}
    {t : SlotTree k}, q ∈ released k first p t → ∃ r, q = p ++ r ∧ Allocated k t r := by
  induction k with
  | zero =>
    intro first p t h
    exact ⟨[], by rw [List.mem_singleton.1 h, List.append_nil], trivial⟩
  | succ k ih =>
    intro first p t h
    rcases List.mem_append.1 h with hbody | hself
    · split_ifs at hbody
      · obtain ⟨c, hc, hq⟩ := List.mem_flatMap.1 hbody
        obtain ⟨r, rfl, hr⟩ := ih hq
        exact ⟨c.2.1 :: r, by rw [List.append_assoc]; rfl, c.2.2, mem_of_mem_markFirst hc, hr⟩
      · exact absurd hbody List.not_mem_nil
    · exact ⟨[], by rw [List.mem_singleton.1 hself, List.append_nil], trivial⟩

theorem nodup_indices (t : SlotTree (k + 1)) :
    ((markFirst (arraysFrom t 0)).map fun c => c.2.1).Nodup := by
  have hmap : ((markFirst (arraysFrom t 0)).map fun c => c.2.1) = (arraysFrom t 0).map Prod.fst := by
    conv_rhs => rw [← map_snd_markFirst (arraysFrom t 0), List.map_map]
    rfl
  rw [hmap]
  exact List.pairwise_map.2 (pairwise_arraysFrom t 0)

/-- **Nothing is released twice.** -/
theorem nodup_released (k : ℕ) : ∀ (first : Bool) (p : List ℕ) (t : SlotTree k),
    (released k first p t).Nodup := by
  induction k with
  | zero => exact fun _ p _ => List.nodup_singleton p
  | succ k ih =>
    intro first p t
    rw [released]
    split_ifs
    · refine List.nodup_append.2 ⟨List.nodup_flatMap.2 ⟨fun c _ => ih .., ?_⟩,
        List.nodup_singleton p, fun q hq q' hq' heq => ?_⟩
      · -- the arrays below differ in their indices
        refine (List.pairwise_map.1 (nodup_indices t)).imp fun {c c'} hne q hq hq' => ?_
        obtain ⟨r, hr, -⟩ := allocated_of_mem_released k hq
        obtain ⟨r', hr', -⟩ := allocated_of_mem_released k hq'
        rw [hr, List.append_assoc, List.append_assoc] at hr'
        exact hne (List.cons.inj (List.append_cancel_left hr')).1
      · obtain ⟨c, -, hq⟩ := List.mem_flatMap.1 hq
        obtain ⟨r, hr, -⟩ := allocated_of_mem_released k hq
        have hlength := congrArg List.length (hr.symm.trans (heq.trans (List.mem_singleton.1 hq')))
        rw [List.length_append, List.length_append, List.length_singleton] at hlength
        omega
    · exact List.nodup_singleton p

/-- What is released below an array is released with it. -/
theorem mem_released_of_mem {t : SlotTree (k + 1)} {c : Bool × ℕ × SlotTree k} {r : List ℕ}
    (hc : c ∈ markFirst (arraysFrom t 0)) (hfirst : first ∨ k = 0) :
    p ++ c.2.1 :: r ∈ released (k + 1) first p t ↔
      p ++ [c.2.1] ++ r ∈ released k c.1 (p ++ [c.2.1]) c.2.2 := by
  rw [released, if_pos hfirst, List.mem_append, List.mem_flatMap, List.append_assoc,
    List.singleton_append]
  constructor
  · rintro (⟨c', hc', hq⟩ | hself)
    · obtain ⟨r', hr', -⟩ := allocated_of_mem_released k hq
      rw [List.append_assoc] at hr'
      have hindex := (List.cons.inj (List.append_cancel_left hr')).1
      rwa [← List.inj_on_of_nodup_map (nodup_indices t) hc hc' hindex] at hq
    · have hlength := congrArg List.length (List.mem_singleton.1 hself)
      rw [List.length_append, List.length_cons] at hlength
      omega
  · exact fun hq => .inl ⟨c, hc, hq⟩

/-- **All arrays are released** where only the first of an inner level has
arrays below it. -/
theorem forall_mem_released_iff (k : ℕ) : ∀ {first : Bool} {p : List ℕ} {t : SlotTree k},
    (∀ r, Allocated k t r → p ++ r ∈ released k first p t) ↔ OnlyFirst k first t := by
  induction k with
  | zero =>
    intro first p t
    refine iff_of_true (fun r hr => ?_) trivial
    rcases r with - | ⟨i, r⟩
    · rw [List.append_nil]
      exact List.mem_singleton_self p
    · exact hr.elim
  | succ k ih =>
    intro first p t
    have hself : p ++ [] ∈ released (k + 1) first p t := by
      rw [List.append_nil]
      exact List.mem_append_right _ (List.mem_singleton_self p)
    by_cases hfirst : first = true ∨ k = 0
    · rw [OnlyFirst, if_pos hfirst]
      constructor
      · intro hall c hc
        refine (ih (p := p ++ [c.2.1])).1 fun r hr => ?_
        exact (mem_released_of_mem hc hfirst).1 (hall _ ⟨c.2.2, mem_of_mem_markFirst hc, hr⟩)
      · intro hall r hr
        rcases r with - | ⟨i, r⟩
        · exact hself
        · obtain ⟨sub, hsub, hr⟩ := hr
          obtain ⟨first', hc⟩ := exists_mem_markFirst hsub
          exact (mem_released_of_mem hc hfirst).2 ((ih (p := p ++ [i])).2 (hall _ hc) r hr)
    · rw [OnlyFirst, if_neg hfirst]
      constructor
      · intro hall i
        by_contra hi
        obtain ⟨sub, hsub⟩ := Option.ne_none_iff_exists'.1 hi
        have hmem := hall [i.val] ⟨sub, mem_arraysFrom_zero.2 ⟨i.isLt, hsub⟩, by cases k <;> trivial⟩
        rw [released, if_neg hfirst, List.nil_append, List.mem_singleton] at hmem
        have hlength := congrArg List.length hmem
        rw [List.length_append, List.length_singleton] at hlength
        omega
      · intro hnone r hr
        rcases r with - | ⟨i, r⟩
        · exact hself
        · obtain ⟨sub, hsub, -⟩ := hr
          obtain ⟨hi, hsub⟩ := mem_arraysFrom_zero.1 hsub
          exact nomatch (hnone ⟨i, hi⟩).symm.trans hsub

/-- A tree of at most three levels has no inner level with a second
array. -/
theorem onlyFirst_of_le_two {t : SlotTree k} (hk : k ≤ 2) : OnlyFirst k true t := by
  have hone (first : Bool) (t : SlotTree 1) : OnlyFirst 1 first t := by
    rw [OnlyFirst, if_pos (Or.inr rfl)]
    exact fun _ _ => trivial
  rcases k with - | - | - | k
  · trivial
  · exact hone true t
  · rw [OnlyFirst, if_pos (Or.inl rfl)]
    exact fun c _ => hone c.1 c.2.2
  · omega

/-- **`free_slots`** of a tree with `k + 1` levels returns, and has
released no array twice and nothing but arrays of the tree. It has
released them all if and only if no array of an inner level but the first
has arrays below it, which is so for at most three levels. -/
theorem freeSlots_releases (t : SlotTree k) :
    ∃ out, Returns (fun fuel => freeSlots fuel (some t)) out ∧ out.Nodup ∧
      (∀ q ∈ out, Allocated k t q) ∧
      ((∀ q, Allocated k t q → q ∈ out) ↔ OnlyFirst k true t) ∧ (k ≤ 2 → OnlyFirst k true t) := by
  refine ⟨released k true [] t, returns_freeSlots t, nodup_released k true [] t, fun q hq => ?_,
    forall_mem_released_iff (p := []) k, onlyFirst_of_le_two⟩
  obtain ⟨r, rfl, hr⟩ := allocated_of_mem_released k hq
  exact hr

/-- The tree of four levels after the slots `0` and `2 ^ 27` were
created. -/
def twoSlots : SlotTree 3 :=
  (SlotTree.getSlot (2 ^ 27) true 3 (SlotTree.getSlot 0 true 3 (SlotTree.new 3)).2).2

/-- **The array on the way to slot `2 ^ 27` is not released.** -/
theorem not_released_twoSlots : Allocated 3 twoSlots [1, 0] ∧
    ∃ out, Returns (fun fuel => freeSlots fuel (some twoSlots)) out ∧ [1, 0] ∉ out := by
  have h0 : (0 : ℕ) < slotIndexNr := by decide
  have h1 : 1 < slotIndexNr := by decide
  obtain ⟨a, ha⟩ : ∃ a, twoSlots ⟨0, h0⟩ = some a := ⟨_, rfl⟩
  obtain ⟨b, hb, c, hc⟩ : ∃ b, twoSlots ⟨1, h1⟩ = some b ∧ ∃ c, b ⟨0, h0⟩ = some c :=
    ⟨_, rfl, _, rfl⟩
  have hmem : (false, 1, b) ∈ markFirst (arraysFrom twoSlots 0) := by
    rw [arraysFrom_of_lt twoSlots h0, ha, arraysFrom_of_lt twoSlots h1, hb]
    exact List.mem_cons_of_mem _ (List.mem_cons_self)
  refine ⟨⟨b, mem_of_mem_markFirst hmem, c, mem_arraysFrom_zero.2 ⟨h0, hc⟩, trivial⟩,
    _, returns_freeSlots twoSlots, fun hreleased => ?_⟩
  have hbelow := (mem_released_of_mem (p := []) (r := [0]) hmem (Or.inl rfl)).1 hreleased
  exact absurd hbelow (by simp [released])

end Concurrent

end CppEtudes
