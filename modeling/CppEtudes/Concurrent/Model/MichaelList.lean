import Mathlib.Data.Nat.Notation
import Mathlib.Logic.Function.Basic

/-!
# The lock-free list

`MichaelList`, one load or compare-and-swap at a time. A `MarkPtrType` is
one word: a pointer, the mark that says that the node holding it has been
removed, and a tag that counts the changes of the word. The place `none`
is the head of the list and `some a` is the `next` field of the node `a`.

A call is a frame with the local variables of `Insert`, `Remove` or
`Search` and of `find`; `step` runs it up to and with its next access to
the memory. The key of a node never changes, so it is read along with
the link of the node. A deleted node is left as it is. `newNode` never
uses its memory for another one; `newNodeAt` may, when no other thread
can still hold a pointer to it.
-/

namespace CppEtudes

namespace Concurrent

/-- `MarkPtrType`. -/
structure Word (τ : Type) where
  ptr : Option ℕ
  mark : Bool
  tag : τ
  deriving DecidableEq, Repr

/-- The head of the list and the nodes, by address. -/
structure Memory (τ : Type) where
  word : Option ℕ → Word τ
  key : ℕ → ℕ
  value : ℕ → ℕ
  fresh : ℕ

variable {τ : Type} [DecidableEq τ] [Zero τ] [One τ] [Add τ]

namespace Memory

/-- An empty list. -/
def new : Memory τ := ⟨fun _ => ⟨none, false, 0⟩, fun _ => 0, fun _ => 0, 0⟩

variable (m : Memory τ)

def write (p : Option ℕ) (w : Word τ) : Memory τ := { m with word := Function.update m.word p w }

/-- `compare_exchange_strong`: the memory after it, if it succeeds. -/
def cas (p : Option ℕ) (old new : Word τ) : Option (Memory τ) :=
  if m.word p = old then some (m.write p new) else none

/-- `new NodeType(key, value)`, at the address `fresh`. -/
def newNode (key value : ℕ) : Memory τ :=
  { word := Function.update m.word (some m.fresh) ⟨none, false, 0⟩
    key := Function.update m.key m.fresh key
    value := Function.update m.value m.fresh value
    fresh := m.fresh + 1 }

/-- `new NodeType(key, value)`, at an address that the allocator chooses;
it may be one that a deleted node has had. -/
def newNodeAt (node key value : ℕ) : Memory τ :=
  { word := Function.update m.word (some node) ⟨none, false, 0⟩
    key := Function.update m.key node key
    value := Function.update m.value node value
    fresh := max m.fresh (node + 1) }

end Memory

/-- What a call is to do. The last `find` of a `Remove` is there for the
node it has marked but could not unlink. -/
inductive Call
  | insert (node : ℕ)
  | remove
  | search
  | cleanup
  deriving DecidableEq, Repr

/-- The next access of a call. From `check` on there is a current node
`curr`. -/
inductive Pc
  /-- `find`: `pmark_curr_ptag = *prev`, from the head -/
  | start
  /-- `find`: `cmark_next_ctag = *list_next(pmark_curr_ptag)` -/
  | next
  /-- `find`: `prev->equal_to(prev_old)` -/
  | check (curr : ℕ)
  /-- `find`: the swap that unlinks a marked node -/
  | unlink (curr : ℕ)
  /-- `Insert`: `node->next = …` -/
  | prepare
  /-- `Insert`: the swap that links the node -/
  | link
  /-- `Remove`: the swap that marks the node -/
  | mark (curr : ℕ)
  /-- `Remove`: the swap that unlinks the node -/
  | detach (curr : ℕ)
  /-- `Search`: `is_mark_delete()` -/
  | inspect (curr : ℕ)
  deriving DecidableEq, Repr

/-- The local variables of a call. -/
structure Frame (τ : Type) where
  call : Call
  head : Option ℕ
  key : ℕ
  prev : Option ℕ
  pcurr : Word τ
  cnext : Word τ
  pc : Pc

/-- What a call returns: whether it succeeded, the node that `find` has
found, and the value that `Search` has read. -/
structure Result where
  ok : Bool
  node : Option ℕ
  value : Option ℕ
  deriving DecidableEq, Repr

inductive Outcome (τ : Type)
  | running (f : Frame τ)
  | done (r : Result)

/-- The call, if it goes on. -/
def Outcome.frame? {τ : Type} : Outcome τ → Option (Frame τ)
  | .running f => some f
  | .done _ => none

/-- A successful `Insert` at its linking swap, a successful `Remove` at
its marking swap. -/
inductive Kind
  | inserted
  | removed
  deriving DecidableEq, Repr

structure Event where
  kind : Kind
  node : ℕ
  key : ℕ
  deriving DecidableEq, Repr

/-- What one access does: to the memory, to the call, and for the list. -/
structure Effect (τ : Type) where
  memory : Memory τ
  outcome : Outcome τ
  event : Option Event

namespace Frame

/-- The call of `list.Insert(head, node)`. -/
def insert (m : Memory τ) (head : Option ℕ) (node : ℕ) : Frame τ :=
  ⟨.insert node, head, m.key node, head, ⟨none, false, 0⟩, ⟨none, false, 0⟩, .start⟩

/-- The call of `list.Remove(head, key)`. -/
def remove (head : Option ℕ) (key : ℕ) : Frame τ :=
  ⟨.remove, head, key, head, ⟨none, false, 0⟩, ⟨none, false, 0⟩, .start⟩

/-- The call of `list.Search(head, key, value)`. -/
def search (head : Option ℕ) (key : ℕ) : Frame τ :=
  ⟨.search, head, key, head, ⟨none, false, 0⟩, ⟨none, false, 0⟩, .start⟩

variable (f : Frame τ)

def goto (pc : Pc) : Frame τ := { f with pc := pc }

/-- `find` returns false. -/
def notFound : Outcome τ :=
  match f.call with
  | .insert _ => .running (f.goto .prepare)
  | .remove => .done ⟨false, none, none⟩
  | .search => .done ⟨false, none, none⟩
  | .cleanup => .done ⟨true, none, none⟩

/-- `find` returns true, with the node `curr`. -/
def found (curr : ℕ) : Outcome τ :=
  match f.call with
  | .insert _ => .done ⟨false, some curr, none⟩
  | .remove => .running (f.goto (.mark curr))
  | .search => .running (f.goto (.inspect curr))
  | .cleanup => .done ⟨true, none, none⟩

/-- The next access of the call. -/
def step (m : Memory τ) : Effect τ :=
  match f.pc with
  | .start => ⟨m, .running { f with prev := f.head, pcurr := m.word f.head, pc := .next }, none⟩
  | .next =>
    match f.pcurr.ptr with
    | none => ⟨m, f.notFound, none⟩
    | some curr => ⟨m, .running { f with cnext := m.word (some curr), pc := .check curr }, none⟩
  | .check curr =>
    if m.word f.prev ≠ ⟨some curr, false, f.pcurr.tag⟩ then ⟨m, .running (f.goto .start), none⟩
    else if f.cnext.mark then ⟨m, .running (f.goto (.unlink curr)), none⟩
    else if f.key ≤ m.key curr then
      ⟨m, if m.key curr = f.key then f.found curr else f.notFound, none⟩
    else ⟨m, .running { f with prev := some curr, pcurr := f.cnext, pc := .next }, none⟩
  | .unlink curr =>
    match m.cas f.prev ⟨some curr, false, f.pcurr.tag⟩ ⟨f.cnext.ptr, false, f.pcurr.tag + 1⟩ with
    | some m' =>
      ⟨m', .running { f with pcurr := { f.cnext with tag := f.pcurr.tag + 1 }, pc := .next }, none⟩
    | none => ⟨m, .running (f.goto .start), none⟩
  | .prepare =>
    match f.call with
    | .insert node =>
      ⟨m.write (some node) ⟨f.pcurr.ptr, false, 0⟩, .running (f.goto .link), none⟩
    | _ => ⟨m, .running f, none⟩
  | .link =>
    match f.call with
    | .insert node =>
      match m.cas f.prev ⟨f.pcurr.ptr, false, f.pcurr.tag⟩ ⟨some node, false, f.pcurr.tag + 1⟩ with
      | some m' => ⟨m', .done ⟨true, none, none⟩, some ⟨.inserted, node, f.key⟩⟩
      | none => ⟨m, .running (f.goto .start), none⟩
    | _ => ⟨m, .running f, none⟩
  | .mark curr =>
    match m.cas (some curr) { f.cnext with mark := false } ⟨f.cnext.ptr, true, f.cnext.tag + 1⟩ with
    | some m' => ⟨m', .running (f.goto (.detach curr)), some ⟨.removed, curr, f.key⟩⟩
    | none => ⟨m, .running (f.goto .start), none⟩
  | .detach curr =>
    match m.cas f.prev ⟨some curr, false, f.pcurr.tag⟩ ⟨f.cnext.ptr, false, f.pcurr.tag + 1⟩ with
    | some m' => ⟨m', .done ⟨true, none, none⟩, none⟩
    | none => ⟨m, .running { f with call := .cleanup, pc := .start }, none⟩
  | .inspect curr =>
    ⟨m, .done ⟨!(m.word (some curr)).mark, some curr, some (m.value curr)⟩, none⟩

/-- A call by itself, until it returns. -/
def run : ℕ → Memory τ → Frame τ → Option (Memory τ × Result)
  | 0, _, _ => none
  | fuel + 1, m, f =>
    match (f.step m).outcome with
    | .running f' => run fuel (f.step m).memory f'
    | .done r => some ((f.step m).memory, r)

end Frame

/-- `list.Insert(head, new NodeType(key, value))`. -/
def Memory.insert (m : Memory τ) (head : Option ℕ) (key value fuel : ℕ) :
    Option (Memory τ × Result) :=
  Frame.run fuel (m.newNode key value) (.insert (m.newNode key value) head m.fresh)

/-- `list.Insert(head, node)`, of a node that has been made before. -/
def Memory.insertNode (m : Memory τ) (head : Option ℕ) (node fuel : ℕ) :
    Option (Memory τ × Result) :=
  Frame.run fuel m (.insert m head node)

/-- `list.Remove(head, key)`. -/
def Memory.remove (m : Memory τ) (head : Option ℕ) (key fuel : ℕ) : Option (Memory τ × Result) :=
  Frame.run fuel m (.remove head key)

/-- `list.Search(head, key, value)`. -/
def Memory.search (m : Memory τ) (head : Option ℕ) (key fuel : ℕ) : Option (Memory τ × Result) :=
  Frame.run fuel m (.search head key)

/-! ## Sequences of calls -/

/-- A call of one thread. An `Insert` has a new node, at the address
`node`. -/
inductive ListCall
  | insert (node key value : ℕ)
  | remove (key : ℕ)
  | search (key : ℕ)
  deriving DecidableEq, Repr

namespace Memory

def call (m : Memory τ) (fuel : ℕ) : ListCall → Option (Memory τ × Result)
  | .insert node key value => (m.newNodeAt node key value).insertNode none node fuel
  | .remove key => m.remove none key fuel
  | .search key => m.search none key fuel

/-- What the calls return, one after the other. -/
def run (fuel : ℕ) : List ListCall → Memory τ → Option (Memory τ × List Result)
  | [], m => some (m, [])
  | c :: calls, m => do
    let (m, result) ← m.call fuel c
    let (m, results) ← run fuel calls m
    return (m, result :: results)

end Memory

/-! ## Threads -/

/-- The memory, the call each thread is in, and what has happened. -/
structure Config (θ τ : Type) where
  memory : Memory τ
  thread : θ → Option (Frame τ)
  log : List Event

namespace Config

variable {θ : Type} [DecidableEq θ]

/-- An empty list, and no thread in a call. -/
def init : Config θ τ := ⟨.new, fun _ => none, []⟩

variable (c : Config θ τ)

/-- A thread calls `Insert` with a new node. -/
def callInsert (t : θ) (key value : ℕ) : Config θ τ :=
  let m := c.memory.newNode key value
  { c with memory := m, thread := Function.update c.thread t (some (.insert m none c.memory.fresh)) }

def callRemove (t : θ) (key : ℕ) : Config θ τ :=
  { c with thread := Function.update c.thread t (some (.remove none key)) }

def callSearch (t : θ) (key : ℕ) : Config θ τ :=
  { c with thread := Function.update c.thread t (some (.search none key)) }

/-- The next access of the call that a thread is in. -/
def advance (t : θ) (f : Frame τ) : Config θ τ :=
  let e := f.step c.memory
  { memory := e.memory
    thread := Function.update c.thread t e.outcome.frame?
    log := c.log ++ e.event.toList }

/-- One step of one thread. -/
inductive Step : Config θ τ → Config θ τ → Prop
  | insert {c : Config θ τ} {t : θ} (key value : ℕ) (h : c.thread t = none) :
      Step c (c.callInsert t key value)
  | remove {c : Config θ τ} {t : θ} (key : ℕ) (h : c.thread t = none) : Step c (c.callRemove t key)
  | search {c : Config θ τ} {t : θ} (key : ℕ) (h : c.thread t = none) : Step c (c.callSearch t key)
  | advance {c : Config θ τ} {t : θ} {f : Frame τ} (h : c.thread t = some f) : Step c (c.advance t f)

end Config

end Concurrent

end CppEtudes
