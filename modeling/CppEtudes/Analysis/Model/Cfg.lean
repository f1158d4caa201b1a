import Mathlib.Data.List.AList

/-!
# Blocks and control-flow graphs

`StmtBlock` and `Cfg`, without the statements of a block. A block is given
its edges before it is added, so that a pointer to it is the block itself,
and a null pointer is `none`.

`_id` and `_begin_block_id` have no initial value: the constructors take
whatever is there. `operator[]` of the map inserts a null pointer where
there is no entry, and `emplace` leaves an entry as it is.
-/

namespace CppEtudes

namespace Analysis

/-- `StmtBlock`. -/
structure StmtBlock where
  id : ℕ
  succIds : List ℕ
  predIds : List ℕ
deriving DecidableEq

namespace StmtBlock

/-- `StmtBlock(stmts)`, with the `_id` that is left uninitialized. -/
def new (id : ℕ) : StmtBlock := { id := id, succIds := [], predIds := [] }

/-- `set_id`. -/
def setId (b : StmtBlock) (id : ℕ) : StmtBlock := { b with id := id }

/-- `set_succ_ids`. -/
def setSuccIds (b : StmtBlock) (succIds : List ℕ) : StmtBlock := { b with succIds := succIds }

/-- `set_pred_ids`, which assigns `_succ_ids`. -/
def setPredIds (b : StmtBlock) (predIds : List ℕ) : StmtBlock := { b with succIds := predIds }

end StmtBlock

/-- `Cfg`. -/
structure Cfg where
  beginBlockId : ℕ
  endBlockIds : List ℕ
  blocks : AList fun _ : ℕ => Option StmtBlock

namespace Cfg

/-- `Cfg()`, with the `_begin_block_id` that is left uninitialized. -/
def new (beginBlockId : ℕ) : Cfg := { beginBlockId := beginBlockId, endBlockIds := [], blocks := ∅ }

/-- `_blocks.emplace(id, blk)`. -/
def emplace (blocks : AList fun _ : ℕ => Option StmtBlock) (id : ℕ) (blk : Option StmtBlock) :
    AList fun _ : ℕ => Option StmtBlock :=
  if id ∈ blocks then blocks else blocks.insert id blk

/-- **`add`**: the tests of the two ends are on each other's lists. -/
def add (c : Cfg) (blk : StmtBlock) : Cfg where
  beginBlockId := if blk.succIds.isEmpty then blk.id else c.beginBlockId
  endBlockIds := if blk.predIds.isEmpty then c.endBlockIds ++ [blk.id] else c.endBlockIds
  blocks := emplace c.blocks blk.id (some blk)

/-- `_blocks[id]`, with what it inserts. -/
def subscript (c : Cfg) (id : ℕ) : Option StmtBlock × Cfg :=
  match c.blocks.lookup id with
  | some blk => (blk, c)
  | none => (none, { c with blocks := emplace c.blocks id none })

/-- `_blocks[id]` for each of some ids. -/
def subscripts : Cfg → List ℕ → List (Option StmtBlock) × Cfg
  | c, [] => ([], c)
  | c, id :: ids =>
    let (blk, c) := c.subscript id
    let (blks, c) := c.subscripts ids
    (blk :: blks, c)

/-- `begin_block`. -/
def beginBlock (c : Cfg) : Option StmtBlock × Cfg := c.subscript c.beginBlockId

/-- `end_blocks`. -/
def endBlocks (c : Cfg) : List (Option StmtBlock) × Cfg := c.subscripts c.endBlockIds

/-- `pred`. -/
def pred (c : Cfg) (block : StmtBlock) : List (Option StmtBlock) × Cfg := c.subscripts block.predIds

/-- `succ`. -/
def succ (c : Cfg) (block : StmtBlock) : List (Option StmtBlock) × Cfg := c.subscripts block.succIds

end Cfg

/-! ## A graph and the calls that set it up -/

/-- A block of a graph, with the ids of its neighbours. -/
structure Node where
  id : ℕ
  succs : List ℕ
  preds : List ℕ
deriving DecidableEq

/-- A control-flow graph: the edges are those of both ends, and one block
has no predecessors. -/
structure Graph where
  nodes : List Node
  nodup : (nodes.map Node.id).Nodup
  succ_mem : ∀ a ∈ nodes, ∀ i ∈ a.succs, ∃ b ∈ nodes, b.id = i ∧ a.id ∈ b.preds
  pred_mem : ∀ b ∈ nodes, ∀ i ∈ b.preds, ∃ a ∈ nodes, a.id = i ∧ b.id ∈ a.succs
  entry : ∃! a, a ∈ nodes ∧ a.preds = []

/-- How a block is made: what its `_id` is before, and whether its
predecessors are set first. -/
structure Setup where
  id : ℕ
  predsFirst : Bool

/-- The block of a node, with both setters called. -/
def Node.block (a : Node) (s : Setup) : StmtBlock :=
  let b := (StmtBlock.new s.id).setId a.id
  if s.predsFirst then (b.setPredIds a.preds).setSuccIds a.succs
  else (b.setSuccIds a.succs).setPredIds a.preds

/-- The `Cfg` after some blocks were added. -/
def Cfg.ofBlocks (beginBlockId : ℕ) (blks : List StmtBlock) : Cfg :=
  blks.foldl Cfg.add (Cfg.new beginBlockId)

end Analysis

end CppEtudes
