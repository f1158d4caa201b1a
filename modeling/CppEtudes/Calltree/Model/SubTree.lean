import CppEtudes.Calltree.Model.Name
import Mathlib.Data.List.AList

/-!
# `sub_tree`

The depth-first search behind both call trees. A `Search` is the
callback `get_id_and_child` with the two fields of a node that the cache
key is made of. The search returns one of three kinds of nodes: one it
does not expand, one it finds in the cache, and one it expands; the
cache keeps the expanded ones. A node and its cached copy are one object
in the source; here the copy in the cache is the one that is counted and
cut, and a tree refers to it by its key.
-/

namespace CppEtudes

namespace Calltree

/-- `leaf` of a node that is not expanded. -/
inductive Leaf where
  | outermost
  | deep
  | recursive
  deriving DecidableEq, Repr

/-- **What `sub_tree` returns.** `child` is set for an expanded node only,
and its `cache_key` where there is a cache. -/
inductive Tree (α : Type) where
  | leaf (val : α) (kind : Leaf)
  | ref (val : α) (cacheKey : Text) (cacheSeqno height : ℕ)
  | node (val : α) (cacheKey : Option Text) (height : ℕ) (child : List (Tree α))

/-- A node of the cache. -/
structure Cached (α : Type) where
  val : α
  height : ℕ
  count : ℕ
  child : List (Tree α)

/-- `$pruned`: a key is absent, or stands for a subtree without a match,
or for a node. -/
abbrev Cache (α : Type) := AList fun _ : Text => Option (Cached α)

/-- The callback of a search: whether the node matches, its id and its
children, or nothing where its file is ruled out. -/
structure Search (α : Type) where
  fileInfo : α → Text
  name : α → Text
  getIdAndChild : α → Option (Bool × Text × List α)

variable {α : Type}

namespace Tree

def val : Tree α → α
  | leaf v _ | ref v _ _ _ | node v _ _ _ => v

def cacheKey : Tree α → Option Text
  | leaf _ _ => none
  | ref _ k _ _ => some k
  | node _ k _ _ => k

def height : Tree α → ℕ
  | leaf _ _ => 1
  | ref _ _ _ h | node _ _ h _ => h

def child : Tree α → List (Tree α)
  | leaf _ _ | ref _ _ _ _ => []
  | node _ _ _ cs => cs

end Tree

namespace Search

/-- `$unique_name`. -/
def uniqueName (s : Search α) (n : α) : Text := s.fileInfo n ++ "::".toList ++ s.name n

/-- What the search does at a node, the cache aside. -/
inductive Visit (α : Type) where
  | skip
  | leaf (matched : Bool) (kind : Leaf)
  | expand (matched : Bool) (nodeId : Text) (child : List α)

/-- `rest` is `depth - level`. -/
def visit (s : Search α) (rest : ℕ) (path : List Text) (n : α) : Visit α :=
  match s.getIdAndChild n with
  | none => .skip
  | some (matched, nodeId, child) =>
    if child.isEmpty then .leaf matched .outermost
    else if rest ≤ 1 then .leaf matched .deep
    else if nodeId ∈ path then .leaf matched .recursive
    else .expand matched nodeId child

/-- The loop over the children, `undef` dropped. -/
def subTrees (step : α → Option (Cache α) → Option (Tree α) × Option (Cache α)) :
    List α → Option (Cache α) → List (Tree α) × Option (Cache α)
  | [], pruned => ([], pruned)
  | n :: ns, pruned =>
    let (t, pruned) := step n pruned
    let (ts, pruned) := subTrees step ns pruned
    (t.toList ++ ts, pruned)

/-- The height of a node over the given children. -/
def heightOver (child : List (Tree α)) : ℕ := (child.map Tree.height).foldr max 0 + 1

/-- **`sub_tree`**, over `rest = depth - level`. The root is returned
even where nothing below it matches. -/
def subTree (s : Search α) : ℕ → ℕ → List Text → α → Option (Cache α) →
    Option (Tree α) × Option (Cache α)
  | 0, _, path, n, pruned =>
    match s.visit 0 path n with
    | .leaf true kind => (some (.leaf n kind), pruned)
    | _ => (none, pruned)
  | rest + 1, level, path, n, pruned =>
    match s.visit (rest + 1) path n with
    | .skip => (none, pruned)
    | .leaf matched kind => (if matched then some (.leaf n kind) else none, pruned)
    | .expand matched nodeId child =>
      match pruned.bind (·.lookup (s.uniqueName n)) with
      | some none => (none, pruned)
      | some (some cached) =>
        (some (.ref n (s.uniqueName n) (cached.count + 1) cached.height),
          pruned.map (·.insert (s.uniqueName n) (some { cached with count := cached.count + 1 })))
      | none =>
        let (childNodes, pruned) :=
          subTrees (s.subTree rest (level + 1) (nodeId :: path)) child pruned
        let height := heightOver childNodes
        if !childNodes.isEmpty || matched || level == 0 then
          (some (.node n (pruned.map fun _ => s.uniqueName n) height childNodes),
            pruned.map (·.insert (s.uniqueName n) (some ⟨n, height, 1, childNodes⟩)))
        else (none, pruned.map (·.insert (s.uniqueName n) none))

end Search

end Calltree

end CppEtudes
