import CppEtudes.Calltree.Model.Calling

/-!
# `extract_all_funcs` — the graphs

From the function definitions that were found to the calling and the
called graph. A node is one object in the source, which both graphs refer
to; here a reference is the index of the definition.
-/

namespace CppEtudes

namespace Calltree

/-- A definition that was found, with all its callees in their order. -/
structure FuncDef where
  name : Text
  callees : List Callee

/-- A graph from names to nodes. -/
abbrev NameGraph := AList fun _ : Text => List ℕ

namespace NameGraph

/-- The nodes under a name. -/
def nodes (graph : NameGraph) (name : Text) : List ℕ := (graph.lookup name).getD []

/-- `push @{$graph{$name}}, $node`, of an entry that is made if need be. -/
def push (node : ℕ) (graph : NameGraph) (name : Text) : NameGraph :=
  graph.insert name (nodes graph name ++ [node])

end NameGraph

/-- `$no_callees`. -/
def noCallees : Text := "[NO_CALLEES]".toList

/-- The key of a callee in `%callees`. -/
def Callee.key (c : Callee) : Text :=
  match c.pre with
  | some pre => pre ++ "/".toList ++ c.name
  | none => c.name

/-- The values of `%callees` by their `seq`: of the callees with one key
the last. -/
def lastOfKey : List Callee → List Callee
  | [] => []
  | c :: cs => if cs.any fun c' => c'.key = c.key then lastOfKey cs else c :: lastOfKey cs

section Extract

variable (defs : List FuncDef)

/-- `%func_count`. -/
def funcCount (name : Text) : ℕ := ((defs.flatMap FuncDef.callees).map Callee.name).count name

variable (ignored : List Text) (trivialThreshold lengthThreshold : ℕ)

/-- `%trivial`. -/
def isTrivial (name : Text) : Bool :=
  isPureName name && (trivialThreshold < funcCount defs name || name.length < lengthThreshold)

/-- `%reserved`. -/
def isReserved (name : Text) : Bool :=
  0 < funcCount defs name && !ignored.contains name && !isTrivial defs trivialThreshold lengthThreshold name

/-- `@callees` of a definition. -/
def reservedCallees (d : FuncDef) : List Callee :=
  lastOfKey (d.callees.filter fun c => isReserved defs ignored trivialThreshold lengthThreshold c.name)

/-- The body of the loop over the callees, on `%called` and
`%processed_callee_names`. -/
def addCallee (node : ℕ) : NameGraph × List Text → Callee → NameGraph × List Text
  | (called, processed), c =>
    let simple := simpleName c.name
    let called := called.push node c.name
    let processed := c.name :: processed
    if c.name != simple && !processed.contains simple then (called.push node simple, simple :: processed)
    else (called, processed)

/-- The graphs. -/
structure Graphs where
  calling : NameGraph
  called : NameGraph

/-- The body of the loop over the definitions. -/
def addFunc (graphs : Graphs) (d : FuncDef × ℕ) : Graphs :=
  let name := d.1.name
  let calling := graphs.calling.push d.2 name
  let calling := if name ≠ simpleName name then calling.push d.2 (simpleName name) else calling
  let callees := reservedCallees defs ignored trivialThreshold lengthThreshold d.1
  let called := (callees.foldl (addCallee d.2) (graphs.called, [])).1
  ⟨calling, if callees.isEmpty then called.push d.2 noCallees else called⟩

/-- **The graph-building loop** of `extract_all_funcs`. -/
def buildGraphs : Graphs :=
  defs.zipIdx.foldl (addFunc defs ignored trivialThreshold lengthThreshold)
    ⟨∅, (∅ : NameGraph).insert noCallees []⟩

end Extract

end Calltree

end CppEtudes
