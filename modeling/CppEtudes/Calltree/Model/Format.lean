import CppEtudes.Calltree.Model.SubTree
import CppEtudes.Common.Loops

/-!
# Loops and formatting

`remove_all_loops` and the functions that print a tree over a cache. A
line is a margin and an entry, and what is printed is the one before the
other. `$Global_pruned_subtrees` is threaded through the formatting: it
lists the common subtrees found so far with their `common_idx`, in the
order they were found. A format that runs out of its levels, or follows
a key that the cache does not have, has no result.
-/

namespace CppEtudes

namespace Calltree

variable {α : Type}

/-! ## `remove_loop` -/

namespace Cache

/-- The children of a cached node; `undef` has none. -/
def childNodes (cache : Cache α) (k : Text) : List (Tree α) :=
  match cache.lookup k with
  | some (some c) => c.child
  | _ => []

/-- `@cache_keys`. -/
def childKeys (cache : Cache α) (k : Text) : List Text := (cache.childNodes k).filterMap Tree.cacheKey

/-- `$remove_child`. -/
def removeChild (cache : Cache α) (k d : Text) : Cache α :=
  match cache.lookup k with
  | some (some c) =>
    cache.insert k (some { c with child := c.child.filter fun t => t.cacheKey != some d })
  | _ => cache

theorem childNodes_removeChild (cache : Cache α) (k d : Text) :
    (cache.removeChild k d).childNodes k =
      (cache.childNodes k).filter fun t => t.cacheKey != some d := by
  unfold removeChild
  split
  · rename_i c hc
    simp only [childNodes, AList.lookup_insert, hc]
  · rename_i hne
    unfold childNodes
    split
    · rename_i c hc
      exact absurd hc (hne c)
    · rfl

theorem childNodes_removeChild_ne {cache : Cache α} {k w : Text} (h : w ≠ k) (d : Text) :
    (cache.removeChild k d).childNodes w = cache.childNodes w := by
  unfold removeChild
  split
  · simp only [childNodes, AList.lookup_insert_ne h]
  · rfl

theorem mem_childKeys_removeChild {cache : Cache α} {u c w d : Text} :
    d ∈ (cache.removeChild u c).childKeys w ↔ d ∈ cache.childKeys w ∧ ¬ (w = u ∧ d = c) := by
  unfold childKeys
  rcases eq_or_ne w u with rfl | h
  · rw [childNodes_removeChild]
    simp only [List.mem_filterMap, List.mem_filter, bne_iff_ne, ne_eq, true_and]
    constructor
    · rintro ⟨t, ⟨ht, hne⟩, htk⟩
      exact ⟨⟨t, ht, htk⟩, fun hd => hne (hd ▸ htk)⟩
    · rintro ⟨⟨t, ht, htk⟩, hne⟩
      refine ⟨t, ⟨ht, fun htc => hne ?_⟩, htk⟩
      rw [htk, Option.some.injEq] at htc
      exact htc
  · rw [childNodes_removeChild_ne h]
    simp only [h, false_and, not_false_eq_true, and_true]

/-- The cache as a graph of its keys. -/
def graph : Loops.Cutting (Cache α) Text where
  succ := childKeys
  cut := removeChild
  mem_succ_cut := mem_childKeys_removeChild

/-- **`remove_all_loops`**, over the keys in the order the hash gives
them; `fuel` bounds the nesting of `remove_loop`. -/
def removeAllLoops (fuel : ℕ) (order : List Text) (cache : Cache α) : Option (Cache α) :=
  Loops.removeAllLoops graph fuel order cache

end Cache

/-! ## `format_tree` -/

/-- A printed line: what stands before the entry, and the entry. -/
structure Line (ε : Type) where
  margin : Text
  entry : Option ε
  deriving DecidableEq, Repr

namespace Line

variable {ε : Type}

def indent (m : String) (l : Line ε) : Line ε := ⟨m.toList ++ l.margin, l.entry⟩

/-- The lines of a child that is not the last. A blank entry without
lines below it leaves the bar alone. -/
def branch (blank : ε → Bool) : List (Line ε) → List (Line ε)
  | [] => [⟨"│".toList, none⟩]
  | first :: rest =>
    if first.margin.isEmpty && first.entry.all blank && rest.isEmpty then [⟨"│".toList, none⟩]
    else first.indent "├── " :: rest.map (indent "│   ")

/-- The lines of the last child. -/
def elbow : List (Line ε) → List (Line ε)
  | [] => [⟨"└── ".toList, none⟩]
  | first :: rest => first.indent "└── " :: rest.map (indent "    ")

end Line

section FormatTree

variable {ν ε σ : Type} (prune : ν → σ → Option ℕ × σ) (getEntry : σ → ℕ → ν → Option ℕ → ε)
  (getChild : σ → ℕ → ν → Option (List ν)) (blank : ε → Bool)

/-- The loop over the children, and the last of them. -/
def formatChildren (step : ν → σ → Option (List (Line ε) × σ)) :
    List ν → σ → Option (List (Line ε) × σ)
  | [], st => some ([], st)
  | [last], st => do
    let (ls, st) ← step last st
    return (Line.elbow ls, st)
  | c :: cs, st => do
    let (ls, st) ← step c st
    let (rest, st) ← formatChildren step cs st
    return (Line.branch blank ls ++ rest, st)

/-- **`format_tree`**: `prune` is `should_prune_subtree`, and the two
callbacks read what it has left. -/
def formatTree : ℕ → ℕ → ν → σ → Option (List (Line ε) × σ)
  | 0, _, _, _ => none
  | fuel + 1, level, root, st => do
    let (commonIdx, st) := prune root st
    let entry := getEntry st level root commonIdx
    let child ← getChild st level root
    let (ls, st) ← formatChildren blank (formatTree fuel (level + 1)) child st
    return (⟨[], some entry⟩ :: ls, st)

end FormatTree

/-! ## Pruned and common subtrees -/

/-- `$Global_pruned_subtrees`: the keys of the common subtrees and their
`common_idx`. -/
abbrev Subtrees := List (Text × ℕ)

/-- What is printed for a node: the node, the index of a common subtree
behind its name and the number before it. -/
structure Entry (α : Type) where
  node : Tree α
  level : ℕ
  commonIdx : Option ℕ
  number : Option ℕ

/-- `\s`. -/
def isSpace (c : Char) : Bool := c ∈ [' ', '\t', '\n', '\r', '\x0c', '\x0b']

/-- The callback `get_entry`, and whether the output is a terminal. -/
structure Printer (α : Type) where
  getEntry : Tree α → Option ℕ → Text
  isatty : Bool

namespace Printer

/-- The text of an entry, as `$prepend_common_idx_get_entry` puts it
together. -/
def text (p : Printer α) (e : Entry α) : Text :=
  match e.number with
  | none => p.getEntry e.node e.commonIdx
  | some i =>
    if p.isatty then
      "\x1b[33;35;1m".toList ++ Nat.toDigits 10 i ++ ".\x1b[m".toList ++ p.getEntry e.node e.commonIdx
    else Nat.toDigits 10 i ++ ".".toList ++ p.getEntry e.node e.commonIdx

/-- `/^\s*$/`. -/
def blank (p : Printer α) (e : Entry α) : Bool := (p.text e).all isSpace

end Printer

/-- The thresholds of a common subtree. -/
structure Thresholds where
  height : ℕ
  count : ℕ

/-- `$enabled_prune`. -/
def Thresholds.enabledPrune (common : Thresholds) : Bool := 2 ≤ common.count && 3 ≤ common.height

namespace Cache

variable (cache : Cache α) (common : Thresholds)

/-- The cached node is high enough and met often enough; `undef` counts
as `0`. -/
def qualifies (k : Text) : Bool :=
  match cache.lookup k with
  | none => false
  | some none => common.height == 0 && common.count == 0
  | some (some c) => common.height ≤ c.height && common.count ≤ c.count

/-- `should_prune_subtree`. -/
def shouldPruneSubtree (enablePrune : Bool) (t : Tree α) (subtrees : Subtrees) :
    Option ℕ × Subtrees :=
  match t.cacheKey with
  | some k =>
    if enablePrune && cache.qualifies common k then
      match subtrees.lookup k with
      | some i => (some i, subtrees)
      | none => (some subtrees.length, subtrees ++ [(k, subtrees.length)])
    else (none, subtrees)
  | none => (none, subtrees)

/-- `$get_child_maybe_pruned` of `format_pruned_tree`. -/
def getChildPruned (subtrees : Subtrees) (_level : ℕ) (t : Tree α) : Option (List (Tree α)) :=
  match t.cacheKey with
  | none => some t.child
  | some k =>
    if (subtrees.lookup k).isSome then some []
    else (cache.lookup k).map fun _ => cache.childNodes k

/-- The entry of a node of the main tree. -/
def treeEntry (_subtrees : Subtrees) (level : ℕ) (t : Tree α) (commonIdx : Option ℕ) : Entry α :=
  ⟨t, level, commonIdx, none⟩

variable (printer : Printer α)

/-- **`format_pruned_tree`.** -/
def formatPrunedTree (fuel : ℕ) (enablePrune : Bool) (root : Tree α) (subtrees : Subtrees) :
    Option (List (Line (Entry α)) × Subtrees) :=
  formatTree (cache.shouldPruneSubtree common enablePrune) treeEntry cache.getChildPruned
    printer.blank fuel 0 root subtrees

/-- `$get_child_maybe_pruned` of `format_common_tree`: a common subtree is
expanded at level 1 only. -/
def getChildCommon (subtrees : Subtrees) (level : ℕ) (t : Tree α) : Option (List (Tree α)) :=
  match t.cacheKey with
  | none => some t.child
  | some k =>
    if (subtrees.lookup k).isSome && 1 < level then some []
    else
      match cache.lookup k with
      | some _ => some (cache.childNodes k)
      | none => some t.child

/-- `$prepend_common_idx_get_entry`: at level 1 the index stands before
the entry, not behind it. -/
def commonEntry (subtrees : Subtrees) (level : ℕ) (t : Tree α) (commonIdx : Option ℕ) : Entry α :=
  if level == 1 then ⟨t, level, none, t.cacheKey.bind (subtrees.lookup ·)⟩
  else ⟨t, level, commonIdx, none⟩

/-- The cached node of a key, as a node of a tree. -/
def cachedNode (k : Text) : Option (Tree α) :=
  match cache.lookup k with
  | some (some c) => some (.node c.val (some k) c.height c.child)
  | _ => none

variable (header : α)

/-- **`format_common_tree`**: the common subtrees in the order of their
index, below the node `[common]`. -/
def formatCommonTree (fuel : ℕ) (quiet : Bool) (subtrees : Subtrees) :
    Option (List (Line (Entry α)) × Subtrees) :=
  if quiet || subtrees.isEmpty then some ([], subtrees)
  else
    let child := (subtrees.insertionSort fun a b => a.2 ≤ b.2).filterMap fun e => cache.cachedNode e.1
    formatTree (cache.shouldPruneSubtree common true) commonEntry cache.getChildCommon
      printer.blank fuel 0 (.node header none 0 child) subtrees

/-- The loop of `format_convergent_common_tree`: until two formats in a
row have as many lines. -/
def formatUntilConvergent (fuel : ℕ) (quiet : Bool) : ℕ → List (Line (Entry α)) → Subtrees →
    Option (List (Line (Entry α)) × Subtrees)
  | 0, _, _ => none
  | rounds + 1, prevLines, subtrees => do
    let (lines, subtrees) ← cache.formatCommonTree common printer header fuel quiet subtrees
    if prevLines.length = lines.length then return (prevLines, subtrees)
    else formatUntilConvergent fuel quiet rounds lines subtrees

/-- **`format_convergent_common_tree`.** -/
def formatConvergentCommonTree (fuel rounds : ℕ) (quiet : Bool) (subtrees : Subtrees) :
    Option (List (Line (Entry α)) × Subtrees) := do
  let (prevLines, subtrees) ← cache.formatCommonTree common printer header fuel quiet subtrees
  cache.formatUntilConvergent common printer header fuel quiet rounds prevLines subtrees

end Cache

end Calltree

end CppEtudes
