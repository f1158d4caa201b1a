import CppEtudes.Calltree.Model.Called
import CppEtudes.Calltree.SubTree
import CppEtudes.Common.Rose

/-!
# The called tree is a pruned unfolding

The unfolding of the called graph from a node: its callers, and theirs,
down to the depth and to a place that repeats on the path. The search
returns of it the nodes that match and those above them, and the root if
it was expanded.
-/

namespace CppEtudes

namespace Calltree

mutual

/-- The nodes of a tree as `sub_tree` has linked them. -/
def Tree.rose {α : Type} : Tree α → Rose α
  | .leaf v _ => .node v []
  | .ref v _ _ _ => .node v []
  | .node v _ _ child => .node v (Tree.roses child)

def Tree.roses {α : Type} : List (Tree α) → List (Rose α)
  | [] => []
  | t :: ts => t.rose :: Tree.roses ts

end

theorem Tree.roses_eq {α : Type} (ts : List (Tree α)) : Tree.roses ts = ts.map Tree.rose := by
  induction ts with
  | nil => rfl
  | cons t ts ih => rw [Tree.roses, ih, List.map_cons]

namespace CalledGraph

variable (graph : CalledGraph) (funcMatchRule fileMatchRule : Text → Bool)

/-! ## The unfolding -/

/-- The callers under the simple name of a node's name, but those with
its own `file_info`. -/
def callers (n : CalledNode) : List CalledNode :=
  ((graph.lookup (simpleName n.name)).getD []).filter fun c => c.fileInfo ≠ n.fileInfo

/-- The file rule, which does not apply to an empty `file_info`. -/
def passes (n : CalledNode) : Bool := n.fileInfo = [] || fileMatchRule n.fileInfo

/-- **The unfolding** of `levels` levels from a node, with the
`file_info`s above it. -/
def unfolding : ℕ → List Text → CalledNode → Rose CalledNode
  | 0, _, n => .node n []
  | levels + 1, path, n =>
    .node n (if levels == 0 || path.contains n.fileInfo then []
      else ((graph.callers n).filter (passes fileMatchRule)).map
        (unfolding levels (n.fileInfo :: path)))

/-- The function rule, on a node. -/
def wanted (n : CalledNode) : Bool := funcMatchRule n.name

/-- The root is expanded: it has callers, and there is a level for
them. -/
def rootExpanded (name : Text) (depth : ℕ) : Bool := 1 < depth && !(graph.callers (root name)).isEmpty

/-- **The pruned unfolding** from a name. -/
def prunedUnfolding (name : Text) (depth : ℕ) : Option (Rose CalledNode) :=
  let tree := graph.unfolding fileMatchRule depth [] (root name)
  if graph.rootExpanded name depth then
    some (.node tree.val (Rose.pruneAll (wanted funcMatchRule) tree.child))
  else tree.prune (wanted funcMatchRule)

/-! ## The search -/

variable {graph funcMatchRule fileMatchRule}

theorem getIdAndChild_eq (n : CalledNode) :
    graph.getIdAndChild funcMatchRule fileMatchRule false n =
      if passes fileMatchRule n then some (wanted funcMatchRule n, n.fileInfo, graph.callers n)
      else none := by
  have hrule : (n.fileInfo ≠ [] ∧ fileMatchRule n.fileInfo = false) ↔
      ¬ passes fileMatchRule n = true := by
    simp [passes]
  rw [getIdAndChild, callers]
  by_cases hpass : passes fileMatchRule n = true
  · rw [if_neg fun h => hrule.1 h hpass, if_pos hpass]
    rcases graph.lookup (simpleName n.name) with - | callers
    · rfl
    · simp [wanted]
  · rw [if_pos (hrule.2 hpass), if_neg hpass]

theorem prune_leaf {α : Type} (wanted : α → Bool) (v : α) :
    Rose.prune wanted (.node v []) = if wanted v then some (.node v []) else none := by
  rw [Rose.prune, Rose.pruneAll, List.isEmpty_nil, Bool.not_true, Bool.or_false]

section Search

variable {levels level : ℕ} {path : List Text} {n : CalledNode}

/-- The children of a node of the unfolding, pruned. -/
theorem roses_filterMap {step : CalledNode → Option (Tree CalledNode)}
    {below : CalledNode → Rose CalledNode} {ns : List CalledNode}
    (h : ∀ n, (step n).map Tree.rose =
      if passes fileMatchRule n then (below n).prune (wanted funcMatchRule) else none) :
    Tree.roses (ns.filterMap step) =
      Rose.pruneAll (wanted funcMatchRule) ((ns.filter (passes fileMatchRule)).map below) := by
  rw [Tree.roses_eq, Rose.pruneAll_eq, List.map_filterMap, List.filterMap_map, List.filterMap_filter]
  exact List.filterMap_congr fun n _ => h n

/-- The node is a leaf of the unfolding. -/
def IsLeaf (graph : CalledGraph) (levels : ℕ) (path : List Text) (n : CalledNode) : Prop :=
  graph.callers n = [] ∨ levels ≤ 1 ∨ n.fileInfo ∈ path

/-- Where the unfolding stops. -/
theorem stops_iff : (levels == 0 || path.contains n.fileInfo) = true ↔
    levels = 0 ∨ n.fileInfo ∈ path := by
  rw [Bool.or_eq_true, beq_iff_eq, List.contains_iff_mem]

theorem unfolding_of_isLeaf (h : graph.IsLeaf levels path n) :
    graph.unfolding fileMatchRule levels path n = .node n [] := by
  rcases levels with - | levels
  · rfl
  · rw [unfolding]
    rcases h with hnil | hlevels | hpath
    · rw [hnil, List.filter_nil, List.map_nil, ite_self]
    · rw [if_pos (stops_iff.2 (.inl (by omega)))]
    · rw [if_pos (stops_iff.2 (.inr hpath))]

theorem visit_of_isLeaf (hpass : passes fileMatchRule n = true) (h : graph.IsLeaf levels path n) :
    ∃ kind, (graph.search funcMatchRule fileMatchRule false).visit levels path n =
      .leaf (wanted funcMatchRule n) kind := by
  rw [Search.visit_of_some ((getIdAndChild_eq n).trans (if_pos hpass))]
  split_ifs with h₁ h₂ h₃
  · exact ⟨_, rfl⟩
  · exact ⟨_, rfl⟩
  · exact ⟨_, rfl⟩
  · rcases h with hnil | hlevels | hpath
    · exact absurd (List.isEmpty_iff.2 hnil) h₁
    · exact absurd hlevels h₂
    · exact absurd hpath h₃

theorem visit_of_not_isLeaf (hpass : passes fileMatchRule n = true)
    (h : ¬ graph.IsLeaf levels path n) :
    (graph.search funcMatchRule fileMatchRule false).visit levels path n =
      .expand (wanted funcMatchRule n) n.fileInfo (graph.callers n) := by
  rw [IsLeaf, not_or, not_or] at h
  rw [Search.visit_of_some ((getIdAndChild_eq n).trans (if_pos hpass)),
    if_neg (by rw [List.isEmpty_iff]; exact h.1), if_neg h.2.1, if_neg h.2.2]

theorem unfolding_of_not_isLeaf (h : ¬ graph.IsLeaf (levels + 1) path n) :
    graph.unfolding fileMatchRule (levels + 1) path n =
      .node n (((graph.callers n).filter (passes fileMatchRule)).map
        (graph.unfolding fileMatchRule levels (n.fileInfo :: path))) := by
  rw [IsLeaf, not_or, not_or] at h
  rw [unfolding, if_neg]
  rw [stops_iff]
  rintro (hlevels | hpath)
  · exact h.2.1 (by omega)
  · exact h.2.2 hpath

theorem visit_of_not_passes (hpass : ¬ passes fileMatchRule n = true) :
    (graph.search funcMatchRule fileMatchRule false).visit levels path n = .skip :=
  Search.visit_of_none ((getIdAndChild_eq n).trans (if_neg hpass))

/-- A node that is not expanded. -/
theorem subTree_rose_of_isLeaf (h : graph.IsLeaf levels path n) :
    ((graph.search funcMatchRule fileMatchRule false).subTree levels level path n none).1.map
        Tree.rose =
      if passes fileMatchRule n then
        (graph.unfolding fileMatchRule levels path n).prune (wanted funcMatchRule)
      else none := by
  by_cases hpass : passes fileMatchRule n = true
  · obtain ⟨kind, hvisit⟩ : ∃ kind, (graph.search funcMatchRule fileMatchRule false).visit levels path
        n = .leaf (wanted funcMatchRule n) kind := visit_of_isLeaf hpass h
    rw [Search.subTree_of_leaf hvisit, if_pos hpass, unfolding_of_isLeaf h, prune_leaf]
    split_ifs
    · rw [Option.map_some, Tree.rose]
    · rfl
  · rw [Search.subTree_of_skip (visit_of_not_passes hpass), if_neg hpass]
    rfl

/-- An expanded node, over the children that were returned to it. -/
theorem rose_of_expand {matched isRoot : Bool} {key : Option Text} {height : ℕ}
    (childNodes : List (Tree CalledNode)) :
    (if !childNodes.isEmpty || matched || isRoot then some (Tree.node n key height childNodes)
      else none).map Tree.rose =
    if matched || isRoot || !(Tree.roses childNodes).isEmpty then
      some (Rose.node n (Tree.roses childNodes))
    else none := by
  rw [Tree.roses_eq, List.isEmpty_map, Bool.or_assoc, Bool.or_comm]
  split_ifs
  · rw [Option.map_some, Tree.rose, Tree.roses_eq]
  · rfl

/-- **A node of the search** and its place in the unfolding, the root
aside. -/
theorem subTree_rose (hlevel : level ≠ 0) :
    ((graph.search funcMatchRule fileMatchRule false).subTree levels level path n none).1.map
        Tree.rose =
      if passes fileMatchRule n then
        (graph.unfolding fileMatchRule levels path n).prune (wanted funcMatchRule)
      else none := by
  induction levels generalizing level path n with
  | zero => exact subTree_rose_of_isLeaf (.inr (.inl (Nat.zero_le 1)))
  | succ levels ih =>
    by_cases hleaf : graph.IsLeaf (levels + 1) path n
    · exact subTree_rose_of_isLeaf hleaf
    by_cases hpass : passes fileMatchRule n = true
    · rw [Search.subTree_of_expand (visit_of_not_isLeaf hpass hleaf) rfl, if_pos hpass,
        unfolding_of_not_isLeaf hleaf, Rose.prune, rose_of_expand, beq_false_of_ne hlevel,
        Bool.or_false, roses_filterMap fun m => ih (Nat.succ_ne_zero level)]
    · rw [Search.subTree_of_skip (visit_of_not_passes hpass), if_neg hpass]
      rfl

theorem rootExpanded_iff {name : Text} {depth : ℕ} :
    graph.rootExpanded name depth = true ↔ ¬ graph.IsLeaf depth [] (root name) := by
  simp [rootExpanded, IsLeaf]
  tauto

/-- **`called_tree`** is the pruned unfolding. -/
theorem calledTree_rose {name : Text} {depth : ℤ} (hdepth : 1 ≤ depth) :
    (graph.calledTree funcMatchRule fileMatchRule name depth).map Tree.rose =
      graph.prunedUnfolding funcMatchRule fileMatchRule name depth.natAbs := by
  have hpass : passes fileMatchRule (root name) = true := rfl
  have hsign : decide (depth < 0) = false := decide_eq_false (by omega)
  obtain ⟨levels, hlevels⟩ : ∃ levels, depth.natAbs = levels + 1 :=
    Nat.exists_eq_succ_of_ne_zero (by omega)
  rw [calledTree, hsign, hlevels, prunedUnfolding]
  by_cases hleaf : graph.IsLeaf (levels + 1) [] (root name)
  · rw [if_neg fun hroot => rootExpanded_iff.1 hroot hleaf, subTree_rose_of_isLeaf hleaf,
      if_pos hpass]
  · rw [if_pos (rootExpanded_iff.2 hleaf),
      Search.subTree_of_expand (visit_of_not_isLeaf hpass hleaf) rfl,
      rose_of_expand, beq_self_eq_true, Bool.or_true, Bool.true_or, if_pos rfl,
      roses_filterMap fun m => subTree_rose (Nat.succ_ne_zero 0), unfolding_of_not_isLeaf hleaf]
    rfl

end Search

/-! ## Paths -/

section Paths

variable {name : Text} {depth levels : ℕ} {path : List Text} {n : CalledNode}
variable {p : List CalledNode} {r u : Rose CalledNode}

theorem reaches_leaf {v : CalledNode} (h : (Rose.node v []).Reaches p u) : p = [v] := by
  cases h with
  | here => rfl
  | down hc _ => exact nomatch hc

/-- A path of `levels` nodes at most of which only the last can be in a
place met before. -/
structure Descends (levels : ℕ) (path : List Text) (p : List CalledNode) : Prop where
  length_le : p.length ≤ max 1 levels
  nodup : (p.dropLast.map CalledNode.fileInfo).Nodup
  fresh : ∀ x ∈ p.dropLast, x.fileInfo ∉ path

theorem Descends.single (levels : ℕ) (path : List Text) (n : CalledNode) :
    Descends levels path [n] :=
  ⟨le_max_left .., List.nodup_nil, fun _ hx => nomatch hx⟩

theorem Descends.cons (h : Descends levels (n.fileInfo :: path) p) (hp : p ≠ [])
    (hlevels : 1 ≤ levels) (hn : n.fileInfo ∉ path) : Descends (levels + 1) path (n :: p) := by
  have hdrop : (n :: p).dropLast = n :: p.dropLast := List.dropLast_cons_of_ne_nil hp
  have hlength := h.length_le
  refine ⟨?_, ?_, ?_⟩
  · rw [List.length_cons]
    omega
  · rw [hdrop, List.map_cons, List.nodup_cons]
    refine ⟨fun hmem => ?_, h.nodup⟩
    obtain ⟨x, hx, heq⟩ := List.mem_map.1 hmem
    exact h.fresh x hx (heq ▸ List.mem_cons_self)
  · rw [hdrop, List.forall_mem_cons]
    exact ⟨hn, fun x hx hmem => h.fresh x hx (List.mem_cons_of_mem _ hmem)⟩

/-- **A path of the unfolding.** -/
theorem descends_unfolding (h : (graph.unfolding fileMatchRule levels path n).Reaches p u) :
    Descends levels path p := by
  induction levels generalizing path n p with
  | zero => exact reaches_leaf h ▸ .single 0 path n
  | succ levels ih =>
    by_cases hleaf : graph.IsLeaf (levels + 1) path n
    · rw [unfolding_of_isLeaf hleaf] at h
      exact reaches_leaf h ▸ .single (levels + 1) path n
    · rw [unfolding_of_not_isLeaf hleaf] at h
      rw [IsLeaf, not_or, not_or] at hleaf
      cases h with
      | here => exact .single (levels + 1) path n
      | down hc hreach =>
        obtain ⟨m, -, rfl⟩ := List.mem_map.1 hc
        exact (ih hreach).cons hreach.ne_nil (by omega) hleaf.2.2

theorem unfolding_eq_node (levels : ℕ) (path : List Text) (n : CalledNode) :
    ∃ cs, graph.unfolding fileMatchRule levels path n = .node n cs := by
  rcases levels with - | levels <;> exact ⟨_, rfl⟩

/-- **A path of the pruned unfolding.** -/
theorem reaches_prunedUnfolding
    (h : graph.prunedUnfolding funcMatchRule fileMatchRule name depth = some r) (hr : r.Reaches p u) :
    Descends depth [] p ∧ (1 < p.length → u.child = [] → wanted funcMatchRule u.val = true) := by
  obtain ⟨cs, hcs⟩ : ∃ cs, graph.unfolding fileMatchRule depth [] (root name) = .node (root name) cs :=
    unfolding_eq_node ..
  -- expanded or not, the root stands over the pruned children
  have hroot : r = .node (root name) (cs.filterMap (Rose.prune (wanted funcMatchRule))) := by
    rw [prunedUnfolding, hcs] at h
    split_ifs at h
    · rw [← Option.some.inj h, Rose.pruneAll_eq]
      rfl
    · exact (Rose.prune_eq_some h).1
  rw [hroot] at hr
  obtain ⟨⟨u', hu'⟩, hleaf⟩ := hr.of_pruneRoot
  exact ⟨descends_unfolding (hcs ▸ hu'), hleaf⟩

/-- **The called tree.** It is the pruned unfolding; therefore each of its
leaves below the root matches, no path has more nodes than the depth, and
only the last node of a path repeats a `file_info`. -/
theorem calledTree_pruned {depth : ℤ} (hdepth : 1 ≤ depth) :
    (graph.calledTree funcMatchRule fileMatchRule name depth).map Tree.rose =
        graph.prunedUnfolding funcMatchRule fileMatchRule name depth.natAbs ∧
      ∀ t, graph.calledTree funcMatchRule fileMatchRule name depth = some t →
        ∀ p u, t.rose.Reaches p u →
          (1 < p.length → u.child = [] → funcMatchRule u.val.name = true) ∧
          p.length ≤ depth ∧ (p.dropLast.map CalledNode.fileInfo).Nodup := by
  refine ⟨calledTree_rose hdepth, fun t ht p u hreach => ?_⟩
  have hpruned : graph.prunedUnfolding funcMatchRule fileMatchRule name depth.natAbs = some t.rose := by
    rw [← calledTree_rose hdepth, ht]
    rfl
  obtain ⟨hdescends, hleaf⟩ := reaches_prunedUnfolding hpruned hreach
  have hlength := hdescends.length_le
  exact ⟨hleaf, by omega, hdescends.nodup⟩

end Paths

/-- `f` is called by `g` in two places, and `g` by `f`. -/
def mutualCalls : CalledGraph :=
  [⟨"f".toList, [⟨"g".toList, "g".toList, "a:1".toList⟩, ⟨"g".toList, "g".toList, "b:7".toList⟩]⟩,
    ⟨"g".toList, [⟨"f".toList, "f".toList, "a:5".toList⟩]⟩].toAList

/-- The witness: four levels of the callers of `f`. -/
theorem calledTree_pruned_mutual :
    ∃ t, mutualCalls.calledTree (fun n => n == "f".toList) (fun _ => true) "f".toList 4 = some t ∧
      ∀ p u, t.rose.Reaches p u → (p.length : ℤ) ≤ 4 := by
  have hsome : (mutualCalls.calledTree (fun n => n == "f".toList) (fun _ => true) "f".toList
      4).isSome = true := by decide
  obtain ⟨t, ht⟩ := Option.isSome_iff_exists.1 hsome
  exact ⟨t, ht, fun p u hreach => ((calledTree_pruned (by decide)).2 t ht p u hreach).2.1⟩

end CalledGraph

end Calltree

end CppEtudes
