import CppEtudes.Common.Fuel
import CppEtudes.Common.Loops
import CppEtudes.Cpptree.Model.SubClass

/-!
# The class tree without its loops

`remove_loop` filters the children of a class against the path before it
goes down to any of them, which is the search of `Loops.dropLoop`. So
`remove_all_loops` ends on every tree, whatever loops it has, and leaves
none; and then `sub_class` ends without a limit on the depth, since a
path of derived classes has no name twice.
-/

namespace CppEtudes

namespace Cpptree

open Calltree (Text)
open Relation

namespace ClassTree

variable {tree tree' : ClassTree} {k u d : Text} {p : Text → Bool}

/-! ## The tree as a graph -/

def children (tree : ClassTree) (k : Text) : List Derived := (tree.lookup k).getD []

/-- The names of the classes derived from `k`. -/
def names (tree : ClassTree) (k : Text) : List Text := (tree.children k).map Derived.name

/-- `d` is derived from `k`. -/
def Edge (tree : ClassTree) (k d : Text) : Prop := d ∈ tree.names k

/-- No class is derived from itself, over however many others. -/
def Acyclic (tree : ClassTree) : Prop := ∀ k, ¬ TransGen tree.Edge k k

/-- The children of `u` with a name in `p` go. -/
def dropChildren (tree : ClassTree) (u : Text) (p : Text → Bool) : ClassTree :=
  match tree.lookup u with
  | none => tree
  | some all => tree.insert u (all.filter fun chd => !p chd.name)

theorem mem_of_edge (h : tree.Edge k d) : k ∈ tree := by
  by_contra hk
  rw [← AList.lookup_eq_none] at hk
  simp [Edge, names, children, hk] at h

theorem children_dropChildren :
    (tree.dropChildren u p).children u = (tree.children u).filter fun chd => !p chd.name := by
  unfold dropChildren children
  split
  · rename_i hnone
    simp [hnone]
  · rename_i all hall
    simp [hall]

theorem children_dropChildren_ne (h : k ≠ u) :
    (tree.dropChildren u p).children k = tree.children k := by
  unfold dropChildren children
  split
  · rfl
  · rw [AList.lookup_insert_ne h]

theorem mem_names_dropChildren :
    d ∈ (tree.dropChildren u p).names k ↔ d ∈ tree.names k ∧ ¬ (k = u ∧ p d = true) := by
  unfold names
  rcases eq_or_ne k u with rfl | h
  · rw [children_dropChildren]
    simp only [List.mem_map, List.mem_filter, Bool.not_eq_true', true_and, Bool.not_eq_true]
    constructor
    · rintro ⟨chd, ⟨hmem, hp⟩, rfl⟩
      exact ⟨⟨chd, hmem, rfl⟩, hp⟩
    · rintro ⟨⟨chd, hmem, rfl⟩, hp⟩
      exact ⟨chd, ⟨hmem, hp⟩, rfl⟩
  · rw [children_dropChildren_ne h]
    simp only [h, false_and, not_false_eq_true, and_true]

theorem mem_dropChildren : k ∈ tree.dropChildren u p ↔ k ∈ tree := by
  unfold dropChildren
  split
  · rfl
  · rename_i all hall
    rw [AList.mem_insert, or_iff_right_of_imp]
    rintro rfl
    exact AList.lookup_isSome.1 (by rw [hall, Option.isSome_some])

def graph : Loops.Dropping ClassTree Text where
  succ := names
  drop := dropChildren
  mem_succ_drop := mem_names_dropChildren

/-! ## `remove_all_loops` -/

/-- `remove_loop` is the search that cuts first. -/
theorem removeLoop_eq (fuel : ℕ) : ∀ (tree : ClassTree) (name : Text) (path : List Text),
    tree.removeLoop fuel name (name :: path) = Loops.dropLoop graph fuel path name tree := by
  induction fuel with
  | zero => intro tree name path; rfl
  | succ fuel ih =>
    intro tree name path
    -- the test of the path, whichever way its equality is decided
    have hpath : ∀ (d : Text) (h : Decidable (d ∈ name :: path)),
        @decide _ h = (name :: path).contains d := by
      intro d h
      rw [Bool.eq_iff_iff, decide_eq_true_iff, List.contains_iff_mem]
    cases hlook : tree.lookup name with
    | none =>
      have hdrop : ∀ p, graph.drop tree name p = tree := by
        intro p
        simp only [graph, dropChildren, hlook]
      have hsucc : graph.succ tree name = [] := by
        simp only [graph, names, children, hlook, Option.getD_none, List.map_nil]
      rw [Loops.dropLoop, hdrop, hsucc, List.foldlM_nil]
      simp only [removeLoop, hlook, Option.pure_def]
    | some all =>
      have hdrop : ∀ p, graph.drop tree name p =
          tree.insert name (all.filter fun chd => !p chd.name) := by
        intro p
        simp only [graph, dropChildren, hlook]
      have hsucc : ∀ cs : List Derived, graph.succ (tree.insert name cs) name =
          cs.map Derived.name := by
        intro cs
        simp only [graph, names, children, AList.lookup_insert, Option.getD_some]
      rw [Loops.dropLoop, hdrop, hsucc, List.foldlM_map]
      simp only [removeLoop, hlook, hpath, ih]

theorem removeAllLoops_eq (fuel : ℕ) (order : List Text) (tree : ClassTree) :
    tree.removeAllLoops fuel order = Loops.dropAllLoops graph fuel order tree := by
  simp only [removeAllLoops, Loops.dropAllLoops, removeLoop_eq]

/-- Of the children of each class, those with the names that are left
stay, in their order; and so do all keys. -/
structure KeepsOnly (tree tree' : ClassTree) : Prop where
  keys : ∀ k, k ∈ tree' ↔ k ∈ tree
  children : ∀ k, tree'.children k =
    (tree.children k).filter fun chd => (tree'.names k).contains chd.name

theorem keepsOnly_refl (tree : ClassTree) : KeepsOnly tree tree where
  keys _ := Iff.rfl
  children k := by
    refine (List.filter_eq_self.2 fun chd hchd => ?_).symm
    exact List.contains_iff_mem.2 (List.mem_map_of_mem hchd)

theorem KeepsOnly.dropChildren (h : KeepsOnly tree tree') (u : Text) (p : Text → Bool) :
    KeepsOnly tree (tree'.dropChildren u p) where
  keys k := mem_dropChildren.trans (h.keys k)
  children k := by
    have hnames : ∀ d, ((tree'.dropChildren u p).names k).contains d =
        ((tree'.names k).contains d && !(k == u && p d)) := by
      intro d
      rw [Bool.eq_iff_iff]
      simp [mem_names_dropChildren]
    rcases eq_or_ne k u with rfl | hne
    · rw [children_dropChildren, h.children k, List.filter_filter]
      refine List.filter_congr fun chd _ => ?_
      rw [hnames, beq_self_eq_true, Bool.true_and, Bool.and_comm]
    · rw [children_dropChildren_ne hne, h.children k]
      refine List.filter_congr fun chd _ => ?_
      rw [hnames, beq_false_of_ne hne, Bool.false_and, Bool.not_false, Bool.and_true]

/-! ## `sub_class` -/

/-- Down to any class of a tree without loops, `sub_class` ends. -/
theorem subClass_ends (hacyclic : tree.Acyclic) (o : Options) (level : ℕ) (fileInfo cls : Text) :
    ∃ r, ∀ fuel, tree.keys.toFinset.card + 1 ≤ fuel →
      o.subClass tree fuel level fileInfo cls = some r := by
  refine Loops.levels_of_acyclic (K := tree.keys.toFinset)
    (P := fun n cls => ∀ level fileInfo, ∃ r, ∀ fuel, n ≤ fuel →
      o.subClass tree fuel level fileInfo cls = some r)
    (fun a b hab => List.mem_toFinset.2 (mem_of_edge hab)) hacyclic ?_ cls level fileInfo
  intro n cls ih level fileInfo
  have hchildren : ∀ chd ∈ tree.children cls, ∃ r, ∀ fuel, n ≤ fuel →
      o.subClass tree fuel (level + 1) chd.fileInfo chd.name = some r := fun chd hchd =>
    ih chd.name (List.mem_map_of_mem hchd) (level + 1) chd.fileInfo
  obtain ⟨nodes, hnodes⟩ := exists_mapM _ hchildren
  -- one round more than the children take
  have hround : ∃ r, ∀ fuel, n ≤ fuel →
      o.subClass tree (fuel + 1) level fileInfo cls = some r := by
    unfold Options.subClass
    by_cases hpath : (truthy fileInfo && !o.pathFilter fileInfo) = true
    · exact ⟨none, fun _ _ => if_pos hpath⟩
    · cases hlook : tree.lookup cls with
      | none => exact ⟨_, fun _ _ => if_neg hpath⟩
      | some child =>
        have hchild : tree.children cls = child := by rw [children, hlook, Option.getD_some]
        rw [hchild] at hnodes
        by_cases hdepth : (o.depth != 0 && decide (o.depth ≤ level + 1)) = true
        · exact ⟨_, fun _ _ => (if_neg hpath).trans (if_pos hdepth)⟩
        · refine ⟨o.above fileInfo cls nodes, fun fuel hfuel => ?_⟩
          rw [if_neg hpath]
          dsimp only
          rw [if_neg hdepth, hnodes fuel hfuel, Option.map_some]
  obtain ⟨r, hr⟩ := hround
  refine ⟨r, fun fuel hfuel => ?_⟩
  obtain ⟨m, rfl⟩ : ∃ m, fuel = m + 1 := ⟨fuel - 1, by omega⟩
  exact hr m (by omega)

/-- **`remove_all_loops` ends on every class tree and leaves it without
loops**, in whatever order the hash gives the keys; only children whose
edge lay on a loop go, and nothing else changes; and then `sub_class` ends
for every class, with any limit on the depth or none. -/
theorem removeAllLoops_subClass_ends {order : List Text} (horder : order.Perm tree.keys) :
    ∃ tree', (∀ fuel, tree.keys.length < fuel → tree.removeAllLoops fuel order = some tree') ∧
      tree'.Acyclic ∧ KeepsOnly tree tree' ∧
      (∀ k d, tree.Edge k d → ¬ tree'.Edge k d → ReflTransGen tree.Edge d k) ∧
      ∀ (o : Options) (level : ℕ) (fileInfo cls : Text), ∃ r, ∀ fuel, tree'.keys.length < fuel →
        o.subClass tree' fuel level fileInfo cls = some r := by
  obtain ⟨tree', hrun, -, hacyclic, honLoop⟩ := Loops.dropAllLoops_spec (D := graph)
    (g := tree) (K := tree.keys.toFinset)
    (fun a b hab => horder.mem_iff.2 (mem_of_edge hab))
    (fun a b hab => List.mem_toFinset.2 (mem_of_edge hab))
  have hcard : ∀ t : ClassTree, t.keys.toFinset.card ≤ t.keys.length := fun t =>
    List.toFinset_card_le _
  have hrun' : ∀ fuel, tree.keys.length < fuel → tree.removeAllLoops fuel order = some tree' := by
    intro fuel hfuel
    rw [removeAllLoops_eq]
    exact hrun fuel ((hcard tree).trans_lt hfuel)
  refine ⟨tree', hrun', hacyclic, ?_, honLoop, fun o level fileInfo cls => ?_⟩
  · exact Loops.dropAllLoops_invariant (P := KeepsOnly tree) (fun g u p hg => hg.dropChildren u p)
      (keepsOnly_refl tree) (hrun _ (Nat.lt_succ_self _))
  · obtain ⟨r, hr⟩ := subClass_ends hacyclic o level fileInfo cls
    exact ⟨r, fun fuel hfuel => hr fuel ((hcard tree').trans_lt hfuel)⟩

/-- Two names, each of a class derived from a class of the other name. -/
def mutualTree : ClassTree :=
  List.toAList [⟨['A'], [⟨['a', '.', 'h'], ['B']⟩, ⟨['c', '.', 'h'], ['C']⟩]⟩,
    ⟨['B'], [⟨['b', '.', 'h'], ['A']⟩]⟩]

theorem removeAllLoops_subClass_ends_mutualTree : ∃ tree',
    (∀ fuel, mutualTree.keys.length < fuel →
      mutualTree.removeAllLoops fuel [['B'], ['A']] = some tree') ∧
      tree'.Acyclic ∧ KeepsOnly mutualTree tree' ∧
      (∀ k d, mutualTree.Edge k d → ¬ tree'.Edge k d → ReflTransGen mutualTree.Edge d k) ∧
      ∀ (o : Options) (level : ℕ) (fileInfo cls : Text), ∃ r, ∀ fuel, tree'.keys.length < fuel →
        o.subClass tree' fuel level fileInfo cls = some r :=
  removeAllLoops_subClass_ends (by decide)

end ClassTree

end Cpptree

end CppEtudes
