import Mathlib.Data.Nat.Notation
import Mathlib.Logic.Function.Basic

/-!
# Cells between sinkers and sources

`LocalShuffleFabric`, one load, store or swap at a time. Sinker `i` and
source `o` share one cell, which holds a chunk or none and two bits. A
sinker is one thread that calls `need_input`, `add_chunk` and
`set_input_finished`, a source is one thread that calls `get_chunk` and
`set_output_finished`; between two accesses of a thread any other thread
can run.

Chunks are known by their numbers. A cell is kept as a record and not as
the word that the pointer and the bits are packed into.
-/

namespace CppEtudes

namespace Shuffle

/-- `ChunkState`. -/
structure ChunkState where
  chunk : Option ℕ
  outputFinished : Bool
  inputFinished : Bool
  deriving DecidableEq, Repr

/-- The word `0`. -/
def ChunkState.empty : ChunkState := ⟨none, false, false⟩

/-- `ChunkState::need_input`. -/
def ChunkState.needInput (s : ChunkState) : Bool :=
  !s.inputFinished && !s.outputFinished && s.chunk.isNone

/-- What has become of the chunks given to `add_chunk` for one cell. -/
structure Trace where
  submitted : List ℕ
  /-- put into the cell -/
  added : List ℕ
  /-- deleted by `add_chunk` -/
  rejected : List ℕ
  /-- neither put into the cell nor deleted -/
  lost : List ℕ
  /-- returned by `get_chunk` -/
  delivered : List ℕ
  /-- deleted by the source -/
  deleted : List ℕ
  deriving DecidableEq, Repr

def Trace.nil : Trace := ⟨[], [], [], [], [], []⟩

/-! ## Sinkers -/

variable {n m : ℕ}

/-- The next access of a sinker. -/
inductive SinkPc (m : ℕ)
  | idle
  /-- `need_input`: the load of a cell -/
  | need (o : Fin m)
  /-- `add_chunk`: the swap -/
  | add (o : Fin m) (chunk : ℕ)
  /-- `set_input_finished`: the load of a cell -/
  | load (o : Fin m)
  /-- `set_input_finished`: the swap, for the first time or again -/
  | finish (o : Fin m) (oldState : ChunkState)
  deriving DecidableEq, Repr

/-- The loop over the cells of a thread, from the first one on. -/
def first (m : ℕ) : Option (Fin m) := if h : 0 < m then some ⟨0, h⟩ else none

def next (o : Fin m) : Option (Fin m) := if h : o + 1 < m then some ⟨o + 1, h⟩ else none

/-- A sinker. `granted o` says that `need_input` has returned true since
the last chunk was added to the cell of source `o`. -/
structure Sinker (m : ℕ) where
  pc : SinkPc m
  granted : Fin m → Bool

namespace Sinker

variable (k : Sinker m)

def goto (pc : SinkPc m) : Sinker m := { k with pc := pc }

/-- `need_input`, at a cell or behind the last one. -/
def needLoop : Option (Fin m) → Sinker m
  | some o => k.goto (.need o)
  | none => ⟨.idle, fun _ => true⟩

/-- `set_input_finished`, at a cell or behind the last one. -/
def finishLoop : Option (Fin m) → Sinker m
  | some o => k.goto (.load o)
  | none => k.goto .idle

/-- The source that the cell of the next access is shared with. -/
def source? : Option (Fin m) :=
  match k.pc with
  | .idle => none
  | .need o => some o
  | .add o _ => some o
  | .load o => some o
  | .finish o _ => some o

/-- The end of `add_chunk`. -/
def added (o : Fin m) : Sinker m := ⟨.idle, Function.update k.granted o false⟩

/-- **An access of a sinker** to the cell `s`. -/
def access (s : ChunkState) (t : Trace) : ChunkState × Trace × Sinker m :=
  match k.pc with
  | .idle => (s, t, k)
  | .need o => (s, t, if s.needInput then k.needLoop (next o) else k.goto .idle)
  | .add o chunk =>
    let t := { t with submitted := t.submitted ++ [chunk] }
    if s = .empty then
      (⟨some chunk, false, false⟩, { t with added := t.added ++ [chunk] }, k.added o)
    else if s.outputFinished || s.inputFinished then
      -- `delete chunk`
      (s, { t with rejected := t.rejected ++ [chunk] }, k.added o)
    else (s, { t with lost := t.lost ++ [chunk] }, k.added o)
  | .load o => (s, t, k.goto (.finish o s))
  | .finish o oldState =>
    if s = oldState then
      (⟨oldState.chunk, oldState.outputFinished, true⟩, t, k.finishLoop (next o))
    else
      -- a swap that fails has loaded the cell
      (s, t, k.goto (.finish o s))

end Sinker

/-! ## Sources -/

/-- The next access of a source. -/
inductive SourcePc (n : ℕ)
  | idle
  /-- `get_chunk`: the load -/
  | load (i : Fin n)
  /-- `get_chunk`: the store behind the `delete` of a chunk -/
  | clear (i : Fin n) (state : ChunkState)
  /-- `get_chunk`: the store when the input is finished -/
  | store (i : Fin n) (state : ChunkState)
  /-- `get_chunk`: the swap, for the first time or again -/
  | take (i : Fin n) (state : ChunkState)
  /-- `set_output_finished`: the load of a cell -/
  | finishLoad (i : Fin n)
  /-- `set_output_finished`: the swap, for the first time or again -/
  | finish (i : Fin n) (oldState : ChunkState)
  deriving DecidableEq, Repr

namespace SourcePc

/-- `set_output_finished`, at a cell or behind the last one. -/
def loop : Option (Fin n) → SourcePc n
  | some i => .finishLoad i
  | none => .idle

/-- The sinker that the cell of the next access is shared with. -/
def sinker? : SourcePc n → Option (Fin n)
  | .idle => none
  | .load i => some i
  | .clear i _ => some i
  | .store i _ => some i
  | .take i _ => some i
  | .finishLoad i => some i
  | .finish i _ => some i

/-- **An access of a source** to the cell `s`. `get_chunk` returns and
`set_output_finished` deletes the chunk of the state it has replaced. -/
def access (s : ChunkState) (t : Trace) : SourcePc n → ChunkState × Trace × SourcePc n
  | .idle => (s, t, .idle)
  | .load i =>
    if s.outputFinished then
      if s.chunk.isSome then (s, t, .clear i s) else (s, t, .idle)
    else if s.inputFinished then (s, t, .store i s)
    else if s.chunk.isNone then (s, t, .idle)
    else (s, t, .take i s)
  | .clear _ state =>
    (⟨none, true, true⟩, { t with deleted := t.deleted ++ state.chunk.toList }, .idle)
  | .store _ state =>
    (⟨none, false, true⟩, { t with delivered := t.delivered ++ state.chunk.toList }, .idle)
  | .take i state =>
    if s = state then
      (⟨none, state.outputFinished, state.inputFinished⟩,
        { t with delivered := t.delivered ++ state.chunk.toList }, .idle)
    else (s, t, .take i s)
  | .finishLoad i => (s, t, .finish i s)
  | .finish i oldState =>
    if s = oldState then
      (⟨none, true, oldState.inputFinished⟩,
        { t with deleted := t.deleted ++ oldState.chunk.toList }, .loop (next i))
    else (s, t, .finish i s)

end SourcePc

/-! ## The fabric -/

/-- `LocalShuffleFabric` with `n` sinkers and `m` sources, and what has
happened at each cell. -/
structure Config (n m : ℕ) where
  fabric : ℕ → ChunkState
  sink : Fin n → Sinker m
  source : Fin m → SourcePc n
  trace : Fin n × Fin m → Trace

namespace Config

variable (c : Config n m)

/-- `i * _num_sources + o`, below the size `n * m` of the vector. That is
an `int` product: a fabric has `n * m < 2^31`, and the index does not
overflow. -/
def idx (i : Fin n) (o : Fin m) : ℕ := i * m + o

/-- The constructor. -/
def new : Config n m :=
  { fabric := fun _ => .empty, sink := fun _ => ⟨.idle, fun _ => false⟩
    source := fun _ => .idle, trace := fun _ => .nil }

def cell (i : Fin n) (o : Fin m) : ChunkState := c.fabric (idx i o)

/-- The next access of a sinker. -/
def runSink (i : Fin n) : Option (Config n m) :=
  (c.sink i).source?.map fun o =>
    let (s, t, k) := (c.sink i).access (c.cell i o) (c.trace (i, o))
    { c with
      fabric := Function.update c.fabric (idx i o) s
      sink := Function.update c.sink i k
      trace := Function.update c.trace (i, o) t }

/-- The next access of a source. -/
def runSource (o : Fin m) : Option (Config n m) :=
  (c.source o).sinker?.map fun i =>
    let (s, t, pc) := (c.source o).access (c.cell i o) (c.trace (i, o))
    { c with
      fabric := Function.update c.fabric (idx i o) s
      source := Function.update c.source o pc
      trace := Function.update c.trace (i, o) t }

/-- **A step of any thread**: a call or an access. `rule` says when a
sinker may add a chunk for a source. -/
inductive Step (rule : Sinker m → Fin m → Prop) : Config n m → Config n m → Prop
  | needInput {c : Config n m} (i : Fin n) : (c.sink i).pc = .idle →
      Step rule c { c with sink := Function.update c.sink i ((c.sink i).needLoop (first m)) }
  | addChunk {c : Config n m} (i : Fin n) (o : Fin m) (chunk : ℕ) : (c.sink i).pc = .idle →
      rule (c.sink i) o →
      Step rule c { c with sink := Function.update c.sink i ((c.sink i).goto (.add o chunk)) }
  | setInputFinished {c : Config n m} (i : Fin n) : (c.sink i).pc = .idle →
      Step rule c { c with sink := Function.update c.sink i ((c.sink i).finishLoop (first m)) }
  | getChunk {c : Config n m} (i : Fin n) (o : Fin m) : c.source o = .idle →
      Step rule c { c with source := Function.update c.source o (.load i) }
  | setOutputFinished {c : Config n m} (o : Fin m) : c.source o = .idle →
      Step rule c { c with source := Function.update c.source o (.loop (first n)) }
  | sink {c c' : Config n m} {i : Fin n} : c.runSink i = some c' → Step rule c c'
  | source {c c' : Config n m} {o : Fin m} : c.runSource o = some c' → Step rule c c'

end Config

end Shuffle

end CppEtudes
