import CppEtudes.Calltree.Model.Extract

/-!
# How often a function is under a name

Each callee puts its function under its name, and under its simple name
if the function is not there yet. A callee whose full name is the simple
name of one before it is not checked, and neither is a second callee of
one name with another prefix: the function is there once more.
-/

namespace CppEtudes

namespace Calltree

namespace NameGraph

variable {graph : NameGraph} {i j : ℕ} {m n : Text}

theorem count_push : (nodes (push j graph m) n).count i =
    (nodes graph n).count i + if m = n ∧ j = i then 1 else 0 := by
  rcases eq_or_ne n m with rfl | hne
  · rw [nodes, push, AList.lookup_insert, Option.getD_some, List.count_append, List.count_singleton]
    simp
  · rw [nodes, push, AList.lookup_insert_ne hne, if_neg fun h => hne h.1.symm]
    rfl

end NameGraph

open NameGraph

/-- The callee has the name, or the simple name. -/
def Callee.Concerns (n : Text) (c : Callee) : Prop := c.name = n ∨ simpleName c.name = n

instance (n : Text) (c : Callee) : Decidable (c.Concerns n) := inferInstanceAs (Decidable (_ ∨ _))

variable {i j : ℕ} {n : Text} {c : Callee} {callees : List Callee} {s : NameGraph × List Text}

/-! ## One function -/

/-- How often a callee puts its function under `n`; `done` if it is there
already. -/
def Callee.adds (n : Text) (done : Bool) (c : Callee) : ℕ :=
  if c.name = n then 1 else if simpleName c.name = n ∧ done = false then 1 else 0

/-- What a round does: the simple name gets the function too, where it is
another name and has not got it. -/
theorem addCallee_cases (j : ℕ) (s : NameGraph × List Text) (c : Callee) :
    (c.name ≠ simpleName c.name ∧ simpleName c.name ∉ s.2 ∧
      addCallee j s c = (push j (push j s.1 c.name) (simpleName c.name),
        simpleName c.name :: c.name :: s.2)) ∨
    ((c.name = simpleName c.name ∨ simpleName c.name ∈ s.2) ∧
      addCallee j s c = (push j s.1 c.name, c.name :: s.2)) := by
  obtain ⟨called, processed⟩ := s
  rw [addCallee]
  split_ifs with h
  · rw [Bool.and_eq_true, bne_iff_ne, Bool.not_eq_true', List.contains_eq_mem,
      decide_eq_false_iff_not, List.mem_cons, not_or] at h
    exact .inl ⟨h.1, h.2.2, rfl⟩
  · rw [Bool.and_eq_true, not_and_or, bne_iff_ne, not_not, Bool.not_eq_true', Bool.not_eq_false,
      List.contains_iff_mem, List.mem_cons] at h
    refine .inr ⟨?_, rfl⟩
    rcases h with h | h | h
    · exact .inl h
    · exact .inl h.symm
    · exact .inr h

/-- **One callee**, of the node itself and of another one. -/
theorem count_addCallee : (nodes (addCallee j s c).1 n).count i =
    (nodes s.1 n).count i + if j = i then c.adds n (n ∈ s.2) else 0 := by
  rcases eq_or_ne j i with rfl | hji
  · rw [if_pos rfl, Callee.adds]
    rcases addCallee_cases j s c with ⟨hne, hnew, heq⟩ | ⟨hold, heq⟩
    · rw [heq, count_push, count_push]
      by_cases hname : c.name = n
      · have hsimple : simpleName c.name ≠ n := fun h => hne (hname.trans h.symm)
        rw [if_pos ⟨hname, rfl⟩, if_neg fun h => hsimple h.1, if_pos hname]
      · by_cases hsimple : simpleName c.name = n
        · have hn : n ∉ s.2 := hsimple ▸ hnew
          simp [hname, hsimple, hn]
        · simp [hname, hsimple]
    · rw [heq, count_push]
      by_cases hname : c.name = n
      · simp [hname]
      · -- under the simple name it is already, if that is `n`
        have hdone : simpleName c.name = n → n ∈ s.2 := by
          rintro rfl
          exact hold.resolve_left hname
        simpa [hname] using hdone
  · rw [if_neg hji]
    rcases addCallee_cases j s c with ⟨-, -, heq⟩ | ⟨-, heq⟩
    · rw [heq, count_push, count_push, if_neg fun h => hji h.2, if_neg fun h => hji h.2]
    · rw [heq, count_push, if_neg fun h => hji h.2]

theorem mem_addCallee : n ∈ (addCallee j s c).2 ↔ n ∈ s.2 ∨ c.Concerns n := by
  unfold Callee.Concerns
  rcases addCallee_cases j s c with ⟨-, -, heq⟩ | ⟨hold, heq⟩
  · rw [heq, List.mem_cons, List.mem_cons, eq_comm, eq_comm (b := c.name)]
    tauto
  · have hsimple : simpleName c.name = n → n ∈ s.2 ∨ c.name = n := by
      rintro rfl
      exact hold.symm
    rw [heq, List.mem_cons, eq_comm]
    tauto

/-- How often the callees of a function put it under `n`. -/
def addsAll (n : Text) : Bool → List Callee → ℕ
  | _, [] => 0
  | done, c :: cs => c.adds n done + addsAll n (done || c.Concerns n) cs

/-- **The loop over the callees.** -/
theorem count_foldl_addCallee : (nodes (callees.foldl (addCallee j) s).1 n).count i =
    (nodes s.1 n).count i + if j = i then addsAll n (n ∈ s.2) callees else 0 := by
  induction callees generalizing s with
  | nil => simp [addsAll]
  | cons c callees ih =>
    have hdone : decide (n ∈ (addCallee j s c).2) =
        (decide (n ∈ s.2) || decide (c.Concerns n)) := by
      rw [Bool.eq_iff_iff]
      simp [mem_addCallee]
    rw [List.foldl_cons, ih, count_addCallee, hdone, addsAll]
    split_ifs <;> omega

/-! ## Once -/

theorem addsAll_true : addsAll n true callees = callees.countP fun c => c.name = n := by
  induction callees with
  | nil => rfl
  | cons c callees ih =>
    rw [addsAll, Bool.true_or, ih, List.countP_cons, Callee.adds, Nat.add_comm]
    simp

/-- **Once, unless** a callee of the name comes after one that has put
the function there. -/
theorem addsAll_false_eq_iff :
    (addsAll n false callees = if ∃ c ∈ callees, c.Concerns n then 1 else 0) ↔
      callees.Pairwise fun c c' => c'.name = n → ¬ c.Concerns n := by
  induction callees with
  | nil => simp [addsAll]
  | cons c callees ih =>
    rw [addsAll, Bool.false_or, List.pairwise_cons]
    by_cases hc : c.Concerns n
    · -- no later callee may have the name
      have hadds : c.adds n false = 1 := by
        rw [Callee.adds]
        rcases hc with hname | hsimple
        · rw [if_pos hname]
        · split_ifs with h₁ h₂
          · rfl
          · rfl
          · exact absurd ⟨hsimple, rfl⟩ h₂
      have hexists : ∃ c' ∈ c :: callees, c'.Concerns n := ⟨c, List.mem_cons_self, hc⟩
      rw [hadds, decide_eq_true hc, addsAll_true, if_pos hexists, Nat.add_eq_left,
        List.countP_eq_zero]
      simp only [decide_eq_true_eq, hc, not_true_eq_false, imp_false]
      refine ⟨fun hnone => ⟨hnone, ?_⟩, fun h => h.1⟩
      exact List.pairwise_of_forall_mem_list fun c₁ _ c₂ hc₂ hname => absurd hname (hnone c₂ hc₂)
    · have hadds : c.adds n false = 0 := by
        rw [Callee.adds, if_neg fun h => hc (.inl h), if_neg fun h => hc (.inr h.1)]
      rw [hadds, decide_eq_false hc, Nat.zero_add]
      simp only [List.mem_cons, exists_eq_or_imp, hc, false_or, ih, not_false_eq_true, implies_true,
        true_and]

/-! ## All functions -/

section Graphs

variable {defs : List FuncDef} {ignored : List Text} {trivialThreshold lengthThreshold : ℕ}
variable {graphs : Graphs}

/-- **One function**, under a name that is not the marker. -/
theorem count_addFunc (hn : n ≠ noCallees) (d : FuncDef × ℕ) :
    (nodes (addFunc defs ignored trivialThreshold lengthThreshold graphs d).called n).count i =
      (nodes graphs.called n).count i + if d.2 = i then
        addsAll n false (reservedCallees defs ignored trivialThreshold lengthThreshold d.1) else 0 := by
  have hloop : (nodes ((reservedCallees defs ignored trivialThreshold lengthThreshold d.1).foldl
      (addCallee d.2) (graphs.called, [])).1 n).count i = (nodes graphs.called n).count i +
        if d.2 = i then
          addsAll n false (reservedCallees defs ignored trivialThreshold lengthThreshold d.1)
        else 0 := by
    rw [count_foldl_addCallee, decide_eq_false List.not_mem_nil]
  rw [← hloop]
  simp only [addFunc]
  by_cases hempty : (reservedCallees defs ignored trivialThreshold lengthThreshold d.1).isEmpty = true
  · rw [if_pos hempty, count_push, if_neg fun h => hn h.1.symm, Nat.add_zero]
  · rw [if_neg hempty]

theorem count_foldl_addFunc (hn : n ≠ noCallees) {ds : List (FuncDef × ℕ)}
    (hds : ∀ d ∈ ds, d.2 ≠ i) :
    (nodes (ds.foldl (addFunc defs ignored trivialThreshold lengthThreshold) graphs).called n).count i =
      (nodes graphs.called n).count i := by
  induction ds generalizing graphs with
  | nil => rfl
  | cons d ds ih =>
    rw [List.forall_mem_cons] at hds
    rw [List.foldl_cons, ih hds.2, count_addFunc hn, if_neg hds.1, Nat.add_zero]

/-- The other definitions have other indices. -/
theorem zipIdx_split {d : FuncDef} (hd : defs[i]? = some d) :
    ∃ ds₁ ds₂, defs.zipIdx = ds₁ ++ (d, i) :: ds₂ ∧ (∀ p ∈ ds₁, p.2 ≠ i) ∧ ∀ p ∈ ds₂, p.2 ≠ i := by
  obtain ⟨ds₁, ds₂, hsplit⟩ := List.append_of_mem (List.mk_mem_zipIdx_iff_getElem?.2 hd)
  have hnodup : (defs.zipIdx.map Prod.snd).Nodup := by
    rw [List.zipIdx_map_snd]
    exact List.nodup_range'
  rw [hsplit, List.map_append, List.map_cons, List.nodup_middle, List.nodup_cons, List.mem_append,
    not_or] at hnodup
  refine ⟨ds₁, ds₂, hsplit, fun p hp heq => ?_, fun p hp heq => ?_⟩
  · exact hnodup.1.1 (List.mem_map.2 ⟨p, hp, heq⟩)
  · exact hnodup.1.2 (List.mem_map.2 ⟨p, hp, heq⟩)

/-- **The node of a function is under a name once** if one of its callees
has the name or the simple name, and else not at all, unless a callee of
the name comes after one that has put it there. -/
theorem count_called_iff {d : FuncDef} (hd : defs[i]? = some d) (hn : n ≠ noCallees) :
    ((nodes (buildGraphs defs ignored trivialThreshold lengthThreshold).called n).count i =
        if ∃ c ∈ reservedCallees defs ignored trivialThreshold lengthThreshold d, c.Concerns n then 1
        else 0) ↔
      (reservedCallees defs ignored trivialThreshold lengthThreshold d).Pairwise fun c c' =>
        c'.name = n → ¬ c.Concerns n := by
  obtain ⟨ds₁, ds₂, hsplit, h₁, h₂⟩ := zipIdx_split hd
  have hinit : (nodes ((∅ : NameGraph).insert noCallees []) n).count i = 0 := by
    rw [nodes, AList.lookup_insert_ne hn, AList.lookup_empty, Option.getD_none, List.count_nil]
  rw [buildGraphs, hsplit, List.foldl_append, List.foldl_cons, count_foldl_addFunc hn h₂,
    count_addFunc hn, count_foldl_addFunc hn h₁, hinit, if_pos rfl, Nat.zero_add]
  exact addsAll_false_eq_iff

end Graphs

/-- `main` with two callees. -/
def mainCalls (name name' : String) : List FuncDef :=
  [⟨"main".toList, [⟨name.toList, name.toList, none⟩, ⟨name'.toList, name'.toList, none⟩]⟩]

/-- The witness: the unqualified callee first. -/
theorem count_called_iff_unqualifiedFirst :
    (nodes (buildGraphs (mainCalls "foo" "A::foo") [] 5 3).called "foo".toList).count 0 = 1 := by
  have hiff := @count_called_iff 0 "foo".toList (mainCalls "foo" "A::foo") [] 5 3 _ rfl (by decide)
  exact (hiff.2 (by decide)).trans (if_pos (by decide))

/-- The qualified callee first: `main` is under `foo` twice. -/
theorem called_qualifiedFirst :
    nodes (buildGraphs (mainCalls "A::foo" "foo") [] 5 3).called "foo".toList = [0, 0] := by
  decide

end Calltree

end CppEtudes
