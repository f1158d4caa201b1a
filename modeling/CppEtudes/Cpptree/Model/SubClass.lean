import CppEtudes.Calltree.Model.Name
import Mathlib.Data.List.AList
import Mathlib.Data.Nat.Notation

/-!
# `sub_class` and the loops of the class tree

`$tree` maps the name of a class to the classes derived from it, each
with the place of its definition. `remove_all_loops` rewrites it, and
`sub_class` unfolds it below one class. Both recurse without a bound of
their own: `fuel` bounds the nesting, and what exceeds it has no result.
-/

namespace CppEtudes

namespace Cpptree

open Calltree (Text)

/-- A derived class, `[ $file_info, $name ]`. -/
structure Derived where
  fileInfo : Text
  name : Text
  deriving DecidableEq, Repr

/-- `$tree`. -/
abbrev ClassTree := AList fun _ : Text => List Derived

namespace ClassTree

/-! ## `remove_loop` -/

/-- **`remove_loop`**. `$path` is shared by the calls in the source; a name
is on it only for as long as its own call takes, since a child that is
on it already is not searched. -/
def removeLoop : ℕ → ClassTree → Text → List Text → Option ClassTree
  | 0, _, _, _ => none
  | fuel + 1, tree, name, path =>
    match tree.lookup name with
    | none => some tree
    | some all =>
      let child := all.filter fun chd => !path.contains chd.name
      child.foldlM (fun tree chd => removeLoop fuel tree chd.name (chd.name :: path))
        (tree.insert name child)

/-- **`remove_all_loops`**, over the keys in the order the hash gives
them. -/
def removeAllLoops (fuel : ℕ) (order : List Text) (tree : ClassTree) : Option ClassTree :=
  order.foldlM (fun tree name => removeLoop fuel tree name [name]) tree

end ClassTree

/-! ## `sub_class` -/

/-- A node of the hierarchy that is printed. -/
inductive Hierarchy
  | node (fileInfo name : Text) (child : List Hierarchy) (tall : ℕ)

def Hierarchy.tall : Hierarchy → ℕ
  | node _ _ _ tall => tall

/-- The options of the command line: `$depth`, where `0` is no limit,
`$pathFilter`, and the match of `$filter`. -/
structure Options where
  depth : ℕ
  pathFilter : Text → Bool
  filter : Text → Bool

/-- The value is neither empty nor `"0"`. -/
def truthy (s : Text) : Bool := s != [] && s != ['0']

namespace Options

variable (o : Options)

/-- A class without children that are shown. -/
def alone (fileInfo cls : Text) : Option Hierarchy :=
  if o.filter cls then some (.node fileInfo cls [] 1) else none

/-- A class above what its children gave. -/
def above (fileInfo cls : Text) (nodes : List (Option Hierarchy)) : Option Hierarchy :=
  match nodes.reduceOption with
  | [] => o.alone fileInfo cls
  | childNodes => some (.node fileInfo cls childNodes
      (1 + (childNodes.map Hierarchy.tall).foldl max 0))

/-- **`sub_class`**. `level` is `$level` at the call, which every return
restores. -/
def subClass (tree : ClassTree) : ℕ → ℕ → Text → Text → Option (Option Hierarchy)
  | 0, _, _, _ => none
  | fuel + 1, level, fileInfo, cls =>
    if truthy fileInfo && !o.pathFilter fileInfo then some none
    else match tree.lookup cls with
      | none => some (o.alone fileInfo cls)
      | some child =>
        if o.depth != 0 && o.depth ≤ level + 1 then some (o.alone fileInfo cls)
        else
          (child.mapM fun chd => subClass tree fuel (level + 1) chd.fileInfo chd.name).map
            (o.above fileInfo cls)

end Options

end Cpptree

end CppEtudes
