import Mathlib.Data.Nat.Notation
import Mathlib.Logic.Function.Basic

/-!
# A list that threads add to

`ConcurrentLinkedList::add`, with a program point for each access to a
link. The place `none` holds `head.next` and the place `some a` the link
of the node with the address `a`; nodes get their addresses one after the
other and are never freed. Between two accesses of a thread any other
thread can run.
-/

namespace CppEtudes

namespace Async

/-- Where a thread is in `add`. -/
inductive Pc
  | idle
  /-- At the load of `old_head`, with a node that has its `next`. -/
  | read (node : ℕ)
  /-- At `compare_exchange_strong`, for the first time or again. -/
  | swap (again : Bool) (node : ℕ) (oldHead : Option ℕ)
  /-- At `node->next = head.next`. -/
  | reload (node : ℕ) (oldHead : Option ℕ)
  deriving DecidableEq, Repr

/-- What a thread does next: it calls `add`, or runs on to its next
access. -/
inductive Action (α : Type)
  | add (t : α)
  | run
  deriving DecidableEq, Repr

variable {τ α : Type}

/-- The links, the values of the nodes by their addresses, and the
threads. -/
structure Config (τ α : Type) where
  next : Option ℕ → Option ℕ
  values : List α
  pc : τ → Pc

namespace Config

/-- An empty list. -/
def new : Config τ α := { next := fun _ => none, values := [], pc := fun _ => .idle }

variable [DecidableEq τ]

def goto (c : Config τ α) (t : τ) (pc : Pc) : Config τ α := { c with pc := Function.update c.pc t pc }

/-- **One access** of thread `t` in `add`. -/
def run (c : Config τ α) (t : τ) : Option (Config τ α) :=
  match c.pc t with
  | .idle => none
  | .read node => some (c.goto t (.swap false node (c.next none)))
  | .swap _ node oldHead =>
    if c.next none = oldHead then
      some { c.goto t .idle with next := Function.update c.next none (some node) }
    else
      -- a swap that fails has loaded the head
      some (c.goto t (.reload node (c.next none)))
  | .reload node oldHead =>
    some { c.goto t (.swap true node oldHead) with
      next := Function.update c.next (some node) (c.next none) }

/-- **A step** of thread `t`. A call begins with the load for the new
node. -/
def step (c : Config τ α) (t : τ) : Action α → Option (Config τ α)
  | .add v =>
    if c.pc t = .idle then
      let node := c.values.length
      some { c.goto t (.read node) with
        next := Function.update c.next (some node) (c.next none)
        values := c.values ++ [v] }
    else none
  | .run => c.run t

/-- The steps of an interleaving. -/
def runs (c : Config τ α) (schedule : List (τ × Action α)) : Option (Config τ α) :=
  schedule.foldlM (fun c ta => c.step ta.1 ta.2) c

end Config

end Async

end CppEtudes
