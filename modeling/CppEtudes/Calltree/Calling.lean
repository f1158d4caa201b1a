import CppEtudes.Calltree.Model.Calling
import CppEtudes.Calltree.SubTree

/-!
# `calling_tree` and its cache

The key of a cached node is its file and its name. What the search finds
below a node also depends on the levels left, on the ids on the path to
it and, for a call, on the prefix before the name. The cached search is
complete where a function met again finds no more than it did where it
was met first.
-/

namespace CppEtudes

namespace Calltree

namespace CallingGraph

variable (graph : CallingGraph) (funcMatchRule fileMatchRule : Text → Bool)

/-- **No function met again keeps more than where it was met first**, on
a walk through what the search unfolds from the start name that does not
go below a function met before, and none is met below itself. -/
def MetAgainKeepsNoMore (name : Text) (depth : ℤ) : Prop :=
  (((graph.search funcMatchRule fileMatchRule).unfolding depth.toNat []
    (graph.startNode name)).walk ∅).isSome

instance (name : Text) (depth : ℤ) :
    Decidable (graph.MetAgainKeepsNoMore funcMatchRule fileMatchRule name depth) :=
  inferInstanceAs (Decidable (_ = true))

/-- **The cache never loses a match**: every function in the tree built
without a cache appears in the tree built with one, references
followed. -/
def CacheComplete (name : Text) (depth : ℤ) : Prop :=
  ∀ t f, (graph.callingTree funcMatchRule fileMatchRule name depth none).1 = some t →
    (graph.search funcMatchRule fileMatchRule).Appears ∅ t f →
    ∃ t' cache', graph.callingTree funcMatchRule fileMatchRule name depth (some ∅) =
        (some t', some cache') ∧
      (graph.search funcMatchRule fileMatchRule).Appears cache' t' f

variable {graph funcMatchRule fileMatchRule}

theorem cacheComplete_of_metAgainKeepsNoMore {name : Text} {depth : ℤ}
    (h : graph.MetAgainKeepsNoMore funcMatchRule fileMatchRule name depth) :
    graph.CacheComplete funcMatchRule fileMatchRule name depth :=
  fun _ _ ht hf => Search.appears_of_walk h ht hf

/-! ## A match the cache loses -/

/-- A function that calls others by their plain names. -/
def plainFunc (name : Char) (line : Char) (callees : List Char) : FuncNode :=
  ⟨[name], none, ['m', '.', 'c', ':', line], some ['m'], callees.map fun c => ⟨[c], [c], none⟩⟩

/-- `S` calls `A` and `B`, `A` calls `B`, and `B` calls `D` through `C`. -/
def lossyGraph : CallingGraph :=
  List.toAList [⟨['S'], [plainFunc 'S' '1' ['A', 'B']]⟩, ⟨['A'], [plainFunc 'A' '2' ['B']]⟩,
    ⟨['B'], [plainFunc 'B' '3' ['C']]⟩, ⟨['C'], [plainFunc 'C' '4' ['D']]⟩,
    ⟨['D'], [plainFunc 'D' '5' []]⟩]

/-- To depth 4 the search meets `B` below `A` first, where `C` is the
last level, and keeps that; `D` is found below the other `B` only. -/
theorem not_cacheComplete_lossyGraph :
    ¬ lossyGraph.CacheComplete (fun _ => true) (fun _ => true) ['S'] 4 := by
  intro h
  set f : Char → Char → List Char → CallNode := fun n l cs => .callees (plainFunc n l cs)
  obtain ⟨t', cache', hrun, happ⟩ := h
    (.node (f 'S' '1' ['A', 'B']) none 4
      [.node (f 'A' '2' ['B']) none 3 [.node (f 'B' '3' ['C']) none 2 [.leaf (f 'C' '4' ['D']) .deep]],
        .node (f 'B' '3' ['C']) none 3
          [.node (f 'C' '4' ['D']) none 2 [.leaf (f 'D' '5' []) .outermost]]])
    (['m', '.', 'c', ':', '5'], ['D']) rfl
    (.child (List.mem_cons_of_mem _ List.mem_cons_self)
      (.child List.mem_cons_self (.child List.mem_cons_self (.here _))))
  have hmem := happ.mem_shownFunctions
  rw [← hrun] at hmem
  revert hmem
  decide +kernel

/-- To depth 8 both places of `B` find all of it. -/
theorem cacheComplete_lossyGraph_deep :
    lossyGraph.CacheComplete (fun _ => true) (fun _ => true) ['S'] 8 :=
  cacheComplete_of_metAgainKeepsNoMore (by decide +kernel)

end CallingGraph

end Calltree

end CppEtudes
