import CppEtudes.Calltree.Model.SubTree

/-!
# `calling_tree`

What a function calls. The graph maps a name to the functions defined
under it; the search goes from a call to the functions it may mean
(`variants`) and from a function to the calls in its body (`callees`).
Fields that only the printed entry reads are left out, as is the record
of the names seen that `fuzzy_calling_tree` keeps.
-/

namespace CppEtudes

namespace Calltree

/-- A call in the body of a function: `prefix` is what stands before the
name, as in `prefix.name()`. -/
structure Callee where
  name : Text
  call : Text
  pre : Option Text
  deriving DecidableEq, Repr

/-- A function of the calling graph. -/
structure FuncNode where
  name : Text
  scope : Option Text
  fileInfo : Text
  filename : Option Text
  callees : List Callee
  deriving DecidableEq, Repr

/-- The calling graph, from a name to its definitions. -/
abbrev CallingGraph := AList fun _ : Text => List FuncNode

/-- A node of the calling tree, by its `branch_type`: a call, whose
`file_info` is empty, or a function, whose `call` is its name. -/
inductive CallNode where
  | variants (callee : Callee)
  | callees (func : FuncNode)
  deriving DecidableEq, Repr

namespace CallNode

def name : CallNode → Text
  | variants c => c.name
  | callees f => f.name

def call : CallNode → Text
  | variants c => c.call
  | callees f => f.name

def fileInfo : CallNode → Text
  | variants _ => []
  | callees f => f.fileInfo

end CallNode

namespace CallingGraph

variable (graph : CallingGraph)

/-- `$new_callee_or_match_node`: a call of the only function of its name
is that function. A call of the only function of its simple name builds
that function's node too, but does not return it. -/
def newCalleeOrMatchNode (callee : Callee) : CallNode :=
  if isPureName callee.name then .variants callee
  else
    match graph.lookup callee.name with
    | some [f] => .callees f
    | _ => .variants callee

/-- The functions a call may mean, those its prefix fits best first: the
exact ones, else the near ones, else all of them. -/
def bestVariants (pre : Option Text) (variants : List FuncNode) : List FuncNode :=
  match pre with
  | none => variants
  | some pre =>
    let scored := (variants.map fun f => (defaultScore (some pre) f.scope f.filename, f)).insertionSort
      fun a b => b.1 ≤ a.1
    let exact := (scored.filter fun d => 999 ≤ d.1).map Prod.snd
    let approx := (scored.filter fun d => 995 ≤ d.1).map Prod.snd
    if !exact.isEmpty then exact else if !approx.isEmpty then approx else variants

/-- `$variant_nodes`: the functions under the name, or else under the
simple name. -/
def variantNodes (name : Text) : List FuncNode :=
  match graph.lookup name with
  | some fs => fs
  | none => (graph.lookup (simpleName name)).getD []

variable (funcMatchRule fileMatchRule : Text → Bool)

/-- `$get_id_and_child`. -/
def getIdAndChild (n : CallNode) : Option (Bool × Text × List CallNode) :=
  if n.fileInfo ≠ [] ∧ fileMatchRule n.fileInfo = false then none
  else
    some (funcMatchRule (simpleName n.name), n.fileInfo ++ ":".toList ++ n.call,
      match n with
      | .variants c => (bestVariants c.pre (graph.variantNodes c.name)).map .callees
      | .callees f => f.callees.map graph.newCalleeOrMatchNode)

def search : Search CallNode where
  fileInfo := CallNode.fileInfo
  name := CallNode.name
  getIdAndChild := graph.getIdAndChild funcMatchRule fileMatchRule

/-- The node `calling_tree` starts from. -/
def startNode (name : Text) : CallNode := graph.newCalleeOrMatchNode ⟨name, name, none⟩

/-- **`calling_tree`**, with the cache as an argument. -/
def callingTree (name : Text) (depth : ℤ) (pruned : Option (Cache CallNode)) :
    Option (Tree CallNode) × Option (Cache CallNode) :=
  (graph.search funcMatchRule fileMatchRule).subTree depth.toNat 0 [] (graph.startNode name) pruned

end CallingGraph

end Calltree

end CppEtudes
