import CppEtudes.Calltree.Model.Format
import CppEtudes.Common.Rose

/-!
# `mind`

The tree that a title and lines with leading dashes make, and its format.
A node is an array in the source, which the stack and the node above
refer to; here the nodes are in a list in the order they are made, and a
reference is a place in it.
-/

namespace CppEtudes

namespace Calltree

/-- `[level, content, children]`. -/
structure MindNode where
  level : ℕ
  content : Text
  children : List ℕ
  deriving DecidableEq

/-- The nodes made so far, and `@stk` with its top first. -/
structure Mind where
  heap : List MindNode
  stk : List ℕ

/-- `length($dashes)`. -/
def dashes (ln : Text) : ℕ := (ln.takeWhile (· == '-')).length

/-- `$content`, the last group of `/^([-]*)\s*(.*)/`. -/
def mindContent (ln : Text) : Text :=
  ((ln.dropWhile (· == '-')).dropWhile isSpace).takeWhile (· != '\n')

namespace Mind

def levelOf (m : Mind) (i : ℕ) : ℕ := (m.heap[i]?.map MindNode.level).getD 0

/-- One round of the loop: nodes are popped until one is left that the
line belongs below. -/
def addLine (m : Mind) (ln : Text) : Option Mind :=
  match m.stk.dropWhile fun i => m.levelOf i + 1 != dashes ln with
  | [] => none
  | top :: stk =>
    let curr := m.heap.length
    some {
      heap := m.heap.modify top (fun n => { n with children := n.children ++ [curr] }) ++
        [⟨dashes ln, mindContent ln, []⟩]
      stk := curr :: top :: stk }

end Mind

/-- **`mind`**: the nodes and `$stk[0]`, or nothing where it dies. -/
def mind (title : Text) (lines : List Text) : Option (List MindNode × ℕ) := do
  let m ← lines.foldlM Mind.addLine ⟨[⟨0, title, []⟩], [0]⟩
  return (m.heap, m.stk.getLastD 0)

/-- The tree below a node. -/
def mindTree (heap : List MindNode) : ℕ → ℕ → Rose Text
  | 0, i => .node ((heap[i]?.map MindNode.content).getD []) []
  | n + 1, i =>
    .node ((heap[i]?.map MindNode.content).getD [])
      (((heap[i]?.map MindNode.children).getD []).map (mindTree heap n))

/-- **`format_mind`**, without pruning. -/
def formatMind (heap : List MindNode) (root : ℕ) (fuel : ℕ) : Option (List (Line Text)) :=
  (formatTree (fun _ st => (none, st)) (fun _ _ i _ => (heap[i]?.map MindNode.content).getD [])
    (fun _ _ i => heap[i]?.map MindNode.children) (fun entry => entry.all isSpace) fuel 0 root ()).map
    Prod.fst

end Calltree

end CppEtudes
