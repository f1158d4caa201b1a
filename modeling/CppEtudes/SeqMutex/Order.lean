import CppEtudes.SeqMutex.Model.SeqMutex
import Mathlib.Logic.Relation
import Mathlib.Tactic.Common

/-!
# Exclusion and order of the mutex with a timing

A thread that has passed its test is the one `_timing_idx` points to,
until it has advanced the index. So there is one such thread at a time,
and the threads have entered in the order of the timing. What breaks this
is a thread that wakes up when the timing is used up: its test has no
assertion before it.
-/

namespace CppEtudes

namespace SeqMutex

/-! ## Phases -/

/-- Whether a thread has the lock. -/
inductive Phase
  | without
  /-- The test is passed, and `lock` has not returned yet. -/
  | passed
  /-- From the return of `lock` to the end of `unlock`. -/
  | within
  deriving DecidableEq, Repr

def Pc.phase : Pc → Phase
  | .leave true => .passed
  | .inside | .acquire .unlock | .test .unlock | .advance => .within
  | _ => .without

variable {timing : List ℕ} {c c' : Config} {t : ℕ}

/-- **The invariant.** A thread with the lock is the one the timing has
next, and what has entered is the timing up to the index, and up to the
thread within. -/
structure Inv (timing : List ℕ) (c : Config) : Prop where
  turn : ∀ t, (c.pc t).phase ≠ .without → timing[c.timingIdx]? = some t
  free : (∀ t, (c.pc t).phase ≠ .within) → c.entered = timing.take c.timingIdx
  taken : ∀ t, (c.pc t).phase = .within → c.entered = timing.take (c.timingIdx + 1)

theorem Inv.new (timing : List ℕ) : Inv timing .new where
  turn _ h := absurd rfl h
  free _ := rfl
  taken _ h := nomatch h

/-- There is at most one thread with the lock. -/
theorem Inv.unique (h : Inv timing c) {t t' : ℕ} (ht : (c.pc t).phase ≠ .without)
    (ht' : (c.pc t').phase ≠ .without) : t = t' :=
  Option.some.inj ((h.turn t ht).symm.trans (h.turn t' ht'))

/-! ## Steps -/

/-- **Nothing happens** to the lock. -/
theorem Inv.of_phase (h : Inv timing c) (hphase : ∀ t, (c'.pc t).phase = (c.pc t).phase)
    (hidx : c'.timingIdx = c.timingIdx) (hentered : c'.entered = c.entered) : Inv timing c' where
  turn t ht := hidx ▸ h.turn t (hphase t ▸ ht)
  free hall := by
    rw [hidx, hentered]
    exact h.free fun t => hphase t ▸ hall t
  taken t ht := by
    rw [hidx, hentered]
    exact h.taken t (hphase t ▸ ht)

theorem phase_goto {pc : Pc} (hphase : pc.phase = (c.pc t).phase) (t' : ℕ) :
    ((c.goto t pc).pc t').phase = (c.pc t').phase := by
  rcases eq_or_ne t' t with rfl | hne
  · rw [c.pc_goto_self, hphase]
  · rw [c.pc_goto_of_ne hne]

theorem Inv.goto (h : Inv timing c) {pc : Pc} (hphase : pc.phase = (c.pc t).phase) :
    Inv timing (c.goto t pc) := h.of_phase (phase_goto hphase) rfl rfl

/-- **A test is passed.** -/
theorem Inv.pass (h : Inv timing c) (ht : (c.pc t).phase = .without)
    (hturn : timing[c.timingIdx]? = some t) : Inv timing (c.goto t (.leave true)) where
  turn t' ht' := by
    rcases eq_or_ne t' t with rfl | hne
    · exact hturn
    · rw [c.pc_goto_of_ne hne] at ht'
      exact h.turn t' ht'
  free hall := by
    refine h.free fun t' => ?_
    rcases eq_or_ne t' t with rfl | hne
    · rw [ht]
      exact nofun
    · exact c.pc_goto_of_ne hne _ ▸ hall t'
  taken t' ht' := by
    rcases eq_or_ne t' t with rfl | hne
    · rw [c.pc_goto_self] at ht'
      exact nomatch ht'
    · rw [c.pc_goto_of_ne hne] at ht'
      exact h.taken t' ht'

/-- **`lock` returns.** -/
theorem Inv.enter (h : Inv timing c) (ht : (c.pc t).phase = .passed) (mutex : Option ℕ) :
    Inv timing { c.goto t .inside with mutex := mutex, entered := c.entered ++ [t] } := by
  have hpassed : (c.pc t).phase ≠ .without := by rw [ht]; exact nofun
  have hturn := h.turn t hpassed
  have hfree : c.entered = timing.take c.timingIdx := by
    refine h.free fun t' ht' => ?_
    have hwithin : (c.pc t').phase ≠ .without := by rw [ht']; exact nofun
    obtain rfl := h.unique hpassed hwithin
    exact nomatch ht.symm.trans ht'
  refine ⟨fun t' ht' => ?_, fun hall => absurd (congrArg Pc.phase (c.pc_goto_self t _)) (hall t),
    fun t' _ => ?_⟩
  · rcases eq_or_ne t' t with rfl | hne
    · exact hturn
    · exact h.turn t' (c.pc_goto_of_ne hne _ ▸ ht')
  · change c.entered ++ [t] = timing.take (c.timingIdx + 1)
    rw [hfree, List.take_add_one, hturn]
    rfl

/-- **The index moves on.** -/
theorem Inv.advance (h : Inv timing c) (ht : (c.pc t).phase = .within) :
    Inv timing { c.goto t (.leave false) with timingIdx := c.timingIdx + 1 } := by
  have hother : ∀ t', ((c.goto t (.leave false)).pc t').phase = .without := by
    intro t'
    rcases eq_or_ne t' t with rfl | hne
    · rw [c.pc_goto_self]
      rfl
    · rw [c.pc_goto_of_ne hne]
      by_contra hphase
      exact hne (h.unique hphase (by rw [ht]; exact nofun))
  refine ⟨fun t' ht' => absurd (hother t') ht', fun _ => h.taken t ht, fun t' ht' => ?_⟩
  exact nomatch (hother t').symm.trans ht'

/-- **A test** within the timing. -/
theorem Inv.tested (h : Inv timing c) {call : Call} (hpc : c.pc t = .test call)
    (hlt : c.timingIdx < timing.length) (beyond : ℕ) :
    Inv timing (c.tested t (timing.getD c.timingIdx beyond == t) call) := by
  have hget : timing[c.timingIdx]? = some (timing.getD c.timingIdx beyond) := by
    rw [List.getD_eq_getElem?_getD, List.getElem?_eq_getElem hlt, Option.getD_some]
  rcases hmine : timing.getD c.timingIdx beyond == t with - | -
  · have hne : timing.getD c.timingIdx beyond ≠ t := by simpa using hmine
    rcases call with - | - | - | -
    · exact (h.goto (by rw [hpc]; rfl)).of_phase (fun _ => rfl) rfl rfl
    · exact (h.goto (by rw [hpc]; rfl)).of_phase (fun _ => rfl) rfl rfl
    · exact h.goto (by rw [hpc]; rfl)
    · -- who calls `unlock` is whose turn it is
      have hturn := h.turn t (by rw [hpc]; exact nofun)
      exact absurd (Option.some.inj (hget.symm.trans hturn)) hne
  · have hturn : timing[c.timingIdx]? = some t := by rw [hget, eq_of_beq hmine]
    rcases call with - | - | - | -
    · exact h.pass (by rw [hpc]; rfl) hturn
    · exact h.pass (by rw [hpc]; rfl) hturn
    · exact h.pass (by rw [hpc]; rfl) hturn
    · exact h.goto (by rw [hpc]; rfl)

theorem Inv.run (h : Inv timing c) {beyond : ℕ}
    (hwake : c.pc t = .test .wake → c.timingIdx < timing.length)
    (hrun : c.run timing beyond t = some c') : Inv timing c' := by
  rcases hpc : c.pc t with - | - | call | call | - | - | entered <;>
    simp only [Config.run, hpc, reduceCtorEq] at hrun
  · split_ifs at hrun
    obtain rfl := Option.some.inj hrun
    have hphase : (Pc.test call).phase = (c.pc t).phase := by
      rw [hpc]
      rcases call with - | - | - | - <;> rfl
    exact (h.goto hphase).of_phase (fun _ => rfl) rfl rfl
  · split_ifs at hrun with hassert
    · obtain rfl := Option.some.inj hrun
      exact h.of_phase (fun _ => rfl) rfl rfl
    · obtain rfl := Option.some.inj hrun
      refine h.tested hpc ?_ beyond
      by_contra hge
      have hcall : call = .wake := by
        by_contra hne
        exact hassert ⟨hne, hge⟩
      exact hge (hwake (hcall ▸ hpc))
  · obtain rfl := Option.some.inj hrun
    exact h.advance (by rw [hpc]; rfl)
  · rcases entered with - | -
    · obtain rfl := Option.some.inj hrun
      exact (h.goto (by rw [hpc]; rfl)).of_phase (fun _ => rfl) rfl rfl
    · obtain rfl := Option.some.inj hrun
      exact h.enter (by rw [hpc]; rfl) none

theorem Inv.step (h : Inv timing c) {a : Action}
    (hwake : c.pc t = .test .wake → c.timingIdx < timing.length)
    (hstep : c.step timing t a = some c') : Inv timing c' := by
  rw [Config.step] at hstep
  split_ifs at hstep
  rcases a with - | - | - | - | beyond
  case run => exact h.run hwake hstep
  all_goals
    -- a call moves its thread to the constructor of `require_lock`
    simp only [Config.act] at hstep
    split_ifs at hstep with hpc
    obtain rfl := Option.some.inj hstep
    exact h.goto (by rw [hpc]; rfl)

/-! ## Runs -/

/-- Any thread takes a step. -/
def Step (timing : List ℕ) (c c' : Config) : Prop := ∃ t a, c.step timing t a = some c'

/-- A step in which no thread that has woken up finds the timing used
up. -/
def TimelyStep (timing : List ℕ) (c c' : Config) : Prop :=
  ∃ t a, c.step timing t a = some c' ∧ (c.pc t = .test .wake → c.timingIdx < timing.length)

theorem Inv.of_run (hrun : Relation.ReflTransGen (TimelyStep timing) .new c) : Inv timing c := by
  induction hrun with
  | refl => exact .new timing
  | tail _ hstep ih =>
    obtain ⟨t, a, hact, hwake⟩ := hstep
    exact ih.step hwake hact

theorem Inv.entered_prefix (h : Inv timing c) : c.entered <+: timing := by
  by_cases hwithin : ∃ t, (c.pc t).phase = .within
  · obtain ⟨t, ht⟩ := hwithin
    rw [h.taken t ht]
    exact List.take_prefix ..
  · rw [h.free fun t ht => hwithin ⟨t, ht⟩]
    exact List.take_prefix ..

/-- **Exclusion and order.** At any point of a run at most one thread is
between `lock` and the end of `unlock`, and the threads have entered in
the order of the timing. -/
theorem exclusive_and_ordered (hrun : Relation.ReflTransGen (TimelyStep timing) .new c) :
    (∀ t t', (c.pc t).phase = .within → (c.pc t').phase = .within → t = t') ∧
      c.entered <+: timing := by
  have h := Inv.of_run hrun
  refine ⟨fun t t' ht ht' => h.unique ?_ ?_, h.entered_prefix⟩
  · rw [ht]
    exact nofun
  · rw [ht']
    exact nofun

/-! ## A thread that wakes up late -/

theorem reflTransGen_foldlM {α σ : Type} {R : σ → σ → Prop} {f : σ → α → Option σ}
    (hf : ∀ s a s', f s a = some s' → R s s') {as : List α} {s s' : σ}
    (h : as.foldlM f s = some s') : Relation.ReflTransGen R s s' := by
  induction as generalizing s with
  | nil =>
    obtain rfl := Option.some.inj h
    exact .refl
  | cons a as ih =>
    rw [List.foldlM_cons] at h
    obtain ⟨s₁, h₁, h₂⟩ := Option.bind_eq_some_iff.1 h
    exact .head (hf s a s₁ h₁) (ih h₂)

/-- Thread `1` waits for thread `0`, which has the lock once, and wakes
up behind it; `beyond` is what it finds there. -/
def lateWaiter (beyond : ℕ) : List (ℕ × Action) :=
  [(1, .lock), (1, .run 0), (1, .run 0),
    (0, .lock), (0, .run 0), (0, .run 0), (0, .run 0),
    (0, .unlock), (0, .run 0), (0, .run 0), (0, .run 0), (0, .run 0),
    (1, .wake), (1, .run 0), (1, .run beyond), (1, .run 0)]

/-- The witness: the timing has thread `1` next. -/
theorem exclusive_and_ordered_lateWaiter :
    ∃ c, Relation.ReflTransGen (TimelyStep [0, 1, 0]) .new c ∧ (c.pc 1).phase = .within ∧
      c.entered = [0, 1] ∧ c.entered <+: [0, 1, 0] := by
  have hentered : ((lateWaiter 0).foldlM (fun (c : Config) ta =>
      if c.pc ta.1 = .test .wake → c.timingIdx < [0, 1, 0].length then c.step [0, 1, 0] ta.1 ta.2
      else none) Config.new).map (fun c => ((c.pc 1).phase, c.entered)) =
        some (.within, [0, 1]) := by decide
  obtain ⟨c, hc, hvalues⟩ := Option.map_eq_some_iff.1 hentered
  obtain ⟨hphase, hlist⟩ := Prod.mk.inj hvalues
  have hrun : Relation.ReflTransGen (TimelyStep [0, 1, 0]) .new c := by
    refine reflTransGen_foldlM (fun c ta c' hstep => ?_) hc
    split_ifs at hstep with hwake
    exact ⟨ta.1, ta.2, hstep, hwake⟩
  exact ⟨c, hrun, hphase, hlist, (exclusive_and_ordered hrun).2⟩

/-- Thread `1` enters though the timing ends with thread `0`: it has read
its own id beyond the end. -/
theorem entered_lateWaiter :
    ∃ c, Relation.ReflTransGen (Step [0]) .new c ∧ c.entered = [0, 1] ∧ ¬ c.entered <+: [0] := by
  have hentered : ((lateWaiter 1).foldlM (fun (c : Config) ta => c.step [0] ta.1 ta.2)
      Config.new).map Config.entered = some [0, 1] := by decide
  obtain ⟨c, hc, hlist⟩ := Option.map_eq_some_iff.1 hentered
  refine ⟨c, reflTransGen_foldlM (fun _ ta _ hstep => ⟨ta.1, ta.2, hstep⟩) hc, hlist, ?_⟩
  rw [hlist]
  decide

end SeqMutex

end CppEtudes
