import Mathlib.Data.Nat.Notation
import Mathlib.Logic.Function.Basic

/-!
# A mutex with a timing

`seq_mutex`. A thread is known by its id. Between two accesses to what
the threads share, any other thread can run; the body of a method runs
while its thread holds `_mutex`. A thread in `wait` can wake up at any
time. A test beyond the end of `_timing` compares with what happens to be
there, and a failed assertion ends the program.
-/

namespace CppEtudes

namespace SeqMutex

/-- What a thread does when it has `_mutex`. -/
inductive Call
  | lock
  /-- The loop of `lock` again, behind `wait`. -/
  | wake
  | tryLock
  | unlock
  deriving DecidableEq, Repr

/-- Where a thread is. -/
inductive Pc
  | outside
  | inside
  /-- At the constructor of `require_lock`, or about to return from
  `wait`. -/
  | acquire (call : Call)
  /-- At the comparison with `get_thread_id()`. -/
  | test (call : Call)
  /-- At `++_timing_idx`. -/
  | advance
  | waiting
  /-- At the destructor of `require_lock`. -/
  | leave (entered : Bool)
  deriving DecidableEq, Repr

/-- The mutex, the threads, and the ids that have entered a critical
section. -/
structure Config where
  timingIdx : ℕ
  mutex : Option ℕ
  pc : ℕ → Pc
  entered : List ℕ
  aborted : Bool

/-- What a thread can do next: call a method, wake up, or run on to its
next access. `beyond` is what is read beyond the end of `_timing`. -/
inductive Action
  | lock
  | tryLock
  | unlock
  | wake
  | run (beyond : ℕ)
  deriving DecidableEq, Repr

namespace Config

/-- `seq_mutex(timing)`, with all threads outside. -/
def new : Config := ⟨0, none, fun _ => .outside, [], false⟩

def goto (c : Config) (t : ℕ) (pc : Pc) : Config := { c with pc := Function.update c.pc t pc }

theorem pc_goto_self (c : Config) (t : ℕ) (pc : Pc) : (c.goto t pc).pc t = pc :=
  Function.update_self ..

theorem pc_goto_of_ne (c : Config) {t t' : ℕ} (h : t' ≠ t) (pc : Pc) :
    (c.goto t pc).pc t' = c.pc t' := Function.update_of_ne h ..

/-- Behind the comparison of a call. -/
def tested (c : Config) (t : ℕ) (mine : Bool) : Call → Config
  | .lock | .wake => if mine then c.goto t (.leave true) else { c.goto t .waiting with mutex := none }
  | .tryLock => c.goto t (.leave mine)
  | .unlock => if mine then c.goto t .advance else c.goto t (.leave false)

/-- Up to the next access. -/
def run (timing : List ℕ) (beyond : ℕ) (c : Config) (t : ℕ) : Option Config :=
  match c.pc t with
  | .acquire call =>
    if c.mutex = none then some { c.goto t (.test call) with mutex := some t } else none
  | .test call =>
    -- the loop of `lock` has no assertion
    if call ≠ .wake ∧ ¬ c.timingIdx < timing.length then some { c with aborted := true }
    else some (c.tested t (timing.getD c.timingIdx beyond == t) call)
  | .advance => some { c.goto t (.leave false) with timingIdx := c.timingIdx + 1 }
  | .leave true => some { c.goto t .inside with mutex := none, entered := c.entered ++ [t] }
  | .leave false => some { c.goto t .outside with mutex := none }
  | _ => none

/-- A method is called where its use is correct. -/
def act (timing : List ℕ) (c : Config) (t : ℕ) : Action → Option Config
  | .lock => if c.pc t = .outside then some (c.goto t (.acquire .lock)) else none
  | .tryLock => if c.pc t = .outside then some (c.goto t (.acquire .tryLock)) else none
  | .unlock => if c.pc t = .inside then some (c.goto t (.acquire .unlock)) else none
  | .wake => if c.pc t = .waiting then some (c.goto t (.acquire .wake)) else none
  | .run beyond => c.run timing beyond t

/-- **A step** of thread `t`. -/
def step (timing : List ℕ) (c : Config) (t : ℕ) (a : Action) : Option Config :=
  if c.aborted then none else c.act timing t a

/-! ### Any calls

Threads that call the methods in any order, `unlock` without the lock
included, and whose ids need not differ. -/

/-- The index at which thread `t` reads `_timing` next, unless an
assertion fails before. -/
def read (timing : List ℕ) (c : Config) (t : ℕ) : Option ℕ :=
  match c.pc t with
  | .test call => if call ≠ .wake ∧ ¬ c.timingIdx < timing.length then none else some c.timingIdx
  | _ => none

/-- Up to the next access, of a thread with any id. -/
def runAs (timing : List ℕ) (id beyond : ℕ) (c : Config) (t : ℕ) : Option Config :=
  match c.pc t with
  | .test call =>
    match c.read timing t with
    | none => some { c with aborted := true }
    | some i => some (c.tested t (timing.getD i beyond == id) call)
  | _ => c.run timing beyond t

/-- A thread calls a method, whether it has the lock or not. -/
def callAs (c : Config) (t : ℕ) (call : Call) : Option Config :=
  if c.pc t = .outside ∨ c.pc t = .inside then some (c.goto t (.acquire call)) else none

def actAs (timing : List ℕ) (id : ℕ) (c : Config) (t : ℕ) : Action → Option Config
  | .lock => c.callAs t .lock
  | .tryLock => c.callAs t .tryLock
  | .unlock => c.callAs t .unlock
  | .wake => if c.pc t = .waiting then some (c.goto t (.acquire .wake)) else none
  | .run beyond => c.runAs timing id beyond t

/-- **A step** of thread `t`, whose id is `id t`. -/
def stepAs (timing : List ℕ) (id : ℕ → ℕ) (c : Config) (t : ℕ) (a : Action) : Option Config :=
  if c.aborted then none else c.actAs timing (id t) t a

end Config

end SeqMutex

end CppEtudes
