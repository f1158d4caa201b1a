import CppEtudes.Calltree.Model.SubTree

/-!
# `called_tree`

Who calls a function. The graph maps a name to the functions that call
something of this name. With a negative depth the search leaves out the
callers of the same simple name instead of those in the same place.
-/

namespace CppEtudes

namespace Calltree

/-- A caller. -/
structure CalledNode where
  name : Text
  simpleName : Text
  fileInfo : Text
  deriving DecidableEq, Repr

/-- The called graph, from a name to its callers. -/
abbrev CalledGraph := AList fun _ : Text => List CalledNode

namespace CalledGraph

variable (graph : CalledGraph) (funcMatchRule fileMatchRule : Text → Bool)

/-- `$get_id_and_child`. -/
def getIdAndChild (deduplicate : Bool) (n : CalledNode) : Option (Bool × Text × List CalledNode) :=
  if n.fileInfo ≠ [] ∧ fileMatchRule n.fileInfo = false then none
  else
    match graph.lookup (simpleName n.name) with
    | none => some (funcMatchRule n.name, n.fileInfo, [])
    | some callers =>
      some (funcMatchRule n.name, n.fileInfo, callers.filter fun c =>
        if deduplicate then c.simpleName ≠ n.simpleName else c.fileInfo ≠ n.fileInfo)

def search (deduplicate : Bool) : Search CalledNode where
  fileInfo := CalledNode.fileInfo
  name := CalledNode.name
  getIdAndChild := graph.getIdAndChild funcMatchRule fileMatchRule deduplicate

/-- The node `called_tree` starts from. -/
def root (name : Text) : CalledNode := ⟨name, name, []⟩

/-- **`called_tree`.** -/
def calledTree (name : Text) (depth : ℤ) : Option (Tree CalledNode) :=
  ((graph.search funcMatchRule fileMatchRule (depth < 0)).subTree depth.natAbs 0 [] (root name)
    none).1

end CalledGraph

end Calltree

end CppEtudes
