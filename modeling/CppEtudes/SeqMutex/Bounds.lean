import CppEtudes.SeqMutex.Order

/-!
# The reads of the timing

The assertions are at the entry of the methods, while the index moves on
during a wait. A thread that waits while other threads use up the rest of
the timing reads behind its end when it wakes up (`Stranded`); that is the
only read out of bounds there is, and the threads that can come to it are
known from the timing and the ids.
-/

namespace CppEtudes

namespace SeqMutex

variable {timing : List ℕ} {id : ℕ → ℕ} {threads : Set ℕ} {c c' : Config} {t : ℕ}

/-- One of the threads takes a step. -/
def FreeStep (timing : List ℕ) (id : ℕ → ℕ) (threads : Set ℕ) (c c' : Config) : Prop :=
  ∃ t ∈ threads, ∃ a, c.stepAs timing id t a = some c'

/-! ## What a run leaves -/

/-- A thread that has `_mutex`. -/
def Pc.Holds : Pc → Prop
  | .test _ | .advance | .leave _ => True
  | _ => False

/-- A thread in the loop of `lock`, behind its first test. -/
def Pc.Waits : Pc → Prop
  | .waiting | .acquire .wake | .test .wake => True
  | _ => False

/-- Thread `w` has found another id at index `i`, and the indices from
there on are those of other threads. -/
def WaitsSince (timing : List ℕ) (id : ℕ → ℕ) (threads : Set ℕ) (w i n : ℕ) : Prop :=
  i < timing.length ∧ timing[i]? ≠ some (id w) ∧
    ∀ j, i ≤ j → j < n → ∃ t ∈ threads, t ≠ w ∧ timing[j]? = some (id t)

/-- **The invariant.** The index has passed ids of the threads only, and
those of other threads since a thread waits. -/
structure History (timing : List ℕ) (id : ℕ → ℕ) (threads : Set ℕ) (c : Config) : Prop where
  mem : ∀ t, c.pc t ≠ .outside → t ∈ threads
  owner : ∀ t, (c.pc t).Holds → c.mutex = some t
  past : ∀ j < c.timingIdx, ∃ t ∈ threads, timing[j]? = some (id t)
  turn : ∀ t, c.pc t = .advance → timing[c.timingIdx]? = some (id t)
  since : ∀ w, (c.pc w).Waits →
    ∃ i ≤ c.timingIdx, WaitsSince timing id threads w i c.timingIdx

namespace History

theorem new (timing : List ℕ) (id : ℕ → ℕ) (threads : Set ℕ) : History timing id threads .new where
  mem _ h := absurd rfl h
  owner _ h := h.elim
  past _ h := absurd h (Nat.not_lt_zero _)
  turn _ h := nomatch h
  since _ h := h.elim

section Step

variable (h : History timing id threads c)
include h

/-- The index does not leave the timing by more than one. -/
theorem timingIdx_le : c.timingIdx ≤ timing.length := by
  by_contra hlt
  obtain ⟨t, -, ht⟩ := h.past timing.length (by omega)
  rw [List.getElem?_eq_none (Nat.le_refl _)] at ht
  exact Option.some_ne_none _ ht.symm

theorem not_holds (ht : c.mutex = some t) {t' : ℕ} (hne : t' ≠ t) : ¬ (c.pc t').Holds :=
  fun hholds => hne (Option.some.inj ((h.owner t' hholds).symm.trans ht))

/-- **A thread moves on**, and the index stays. -/
theorem move (ht : t ∈ threads) {pc : Pc} {mutex : Option ℕ} (entered : List ℕ)
    (hself : pc.Holds → mutex = some t) (hother : ∀ t' ≠ t, (c.pc t').Holds → mutex = some t')
    (hturn : pc = .advance → timing[c.timingIdx]? = some (id t))
    (hwaits : pc.Waits → (c.pc t).Waits ∨
      c.timingIdx < timing.length ∧ timing[c.timingIdx]? ≠ some (id t)) :
    History timing id threads { c.goto t pc with mutex := mutex, entered := entered } where
  mem t' ht' := by
    rcases eq_or_ne t' t with rfl | hne
    · exact ht
    · exact h.mem t' (c.pc_goto_of_ne hne pc ▸ ht')
  owner t' ht' := by
    rcases eq_or_ne t' t with rfl | hne
    · exact hself (c.pc_goto_self t' pc ▸ ht')
    · exact hother t' hne (c.pc_goto_of_ne hne pc ▸ ht')
  past := h.past
  turn t' ht' := by
    rcases eq_or_ne t' t with rfl | hne
    · exact hturn ((c.pc_goto_self t' pc).symm.trans ht')
    · exact h.turn t' ((c.pc_goto_of_ne hne pc).symm.trans ht')
  since w hw := by
    rcases eq_or_ne w t with rfl | hne
    · rcases hwaits (c.pc_goto_self w pc ▸ hw) with hold | ⟨hlt, hget⟩
      · exact h.since w hold
      · exact ⟨c.timingIdx, Nat.le_refl _, hlt, hget, fun j hj hj' => absurd hj' (Nat.not_lt.2 hj)⟩
    · exact h.since w (c.pc_goto_of_ne hne pc ▸ hw)

/-- A thread without `_mutex` moves to a place where it needs none. -/
theorem goto (ht : t ∈ threads) {pc : Pc} (hfree : ¬ pc.Holds) (hwaits : pc.Waits → (c.pc t).Waits)
    :
    History timing id threads (c.goto t pc) :=
  h.move ht c.entered (fun hholds => absurd hholds hfree) (fun t' _ hholds => h.owner t' hholds)
    (fun hadv => absurd (hadv ▸ trivial) hfree) fun hw => .inl (hwaits hw)

/-- The thread that has `_mutex` moves on and keeps it. -/
theorem keep (ht : t ∈ threads) (howner : c.mutex = some t) {pc : Pc}
    (hturn : pc = .advance → timing[c.timingIdx]? = some (id t)) (hwaits : ¬ pc.Waits) :
    History timing id threads (c.goto t pc) :=
  h.move ht c.entered (fun _ => howner) (fun t' _ hholds => h.owner t' hholds) hturn
    fun hw => absurd hw hwaits

/-- The thread that has `_mutex` gives it back. -/
theorem release (ht : t ∈ threads) (howner : c.mutex = some t) {pc : Pc} (entered : List ℕ)
    (hfree : ¬ pc.Holds)
    (hwaits : pc.Waits → (c.pc t).Waits ∨
      c.timingIdx < timing.length ∧ timing[c.timingIdx]? ≠ some (id t)) :
    History timing id threads { c.goto t pc with mutex := none, entered := entered } :=
  h.move ht entered (fun hholds => absurd hholds hfree)
    (fun _ hne hholds => absurd hholds (h.not_holds howner hne))
    (fun hadv => absurd (hadv ▸ trivial) hfree) hwaits

/-- **The index moves on.** Who has `_mutex` there waits for nobody. -/
theorem advance (hpc : c.pc t = .advance) :
    History timing id threads { c.goto t (.leave false) with timingIdx := c.timingIdx + 1 } := by
  have ht : t ∈ threads := h.mem t (by rw [hpc]; exact nofun)
  have howner : c.mutex = some t := h.owner t (hpc ▸ trivial)
  have hturn := h.turn t hpc
  have hmoved : History timing id threads (c.goto t (.leave false)) :=
    h.keep ht howner nofun fun hw => hw.elim
  refine ⟨hmoved.mem, hmoved.owner, fun j hj => ?_, fun t' ht' => ?_, fun w hw => ?_⟩
  · rcases Nat.lt_succ_iff_lt_or_eq.1 hj with hlt | rfl
    · exact h.past j hlt
    · exact ⟨t, ht, hturn⟩
  · -- nobody else is at the index
    have hholds : ((c.goto t (.leave false)).pc t').Holds := ht' ▸ trivial
    rcases eq_or_ne t' t with rfl | hne
    · exact nomatch (c.pc_goto_self t' (.leave false)).symm.trans ht'
    · exact absurd (c.pc_goto_of_ne hne (.leave false) ▸ hholds) (h.not_holds howner hne)
  · have hne : w ≠ t := by
      rintro rfl
      exact (c.pc_goto_self w (.leave false) ▸ hw : (Pc.leave false).Waits).elim
    obtain ⟨i, hi, hlt, hget, hrest⟩ := h.since w (c.pc_goto_of_ne hne (.leave false) ▸ hw)
    refine ⟨i, Nat.le_succ_of_le hi, hlt, hget, fun j hj hj' => ?_⟩
    rcases Nat.lt_succ_iff_lt_or_eq.1 hj' with hj' | rfl
    · exact hrest j hj hj'
    · exact ⟨t, ht, hne.symm, hturn⟩

/-- **A test.** Only one behind `wait` can be made at the end of the
timing, by a thread that waits already. -/
theorem tested {call : Call} (hpc : c.pc t = .test call)
    (hread : call = .wake ∨ c.timingIdx < timing.length) (beyond : ℕ) :
    History timing id threads (c.tested t (timing.getD c.timingIdx beyond == id t) call) := by
  have ht : t ∈ threads := h.mem t (by rw [hpc]; exact nofun)
  have howner : c.mutex = some t := h.owner t (hpc ▸ trivial)
  have hget : c.timingIdx < timing.length →
      timing[c.timingIdx]? = some (timing.getD c.timingIdx beyond) := by
    intro hlt
    rw [List.getD_eq_getElem?_getD, List.getElem?_eq_getElem hlt, Option.getD_some]
  -- the thread keeps `_mutex`, or goes to sleep
  have hleave (entered : Bool) : History timing id threads (c.goto t (.leave entered)) :=
    h.keep ht howner nofun fun hw => hw.elim
  have hsleep : ((c.pc t).Waits ∨
      c.timingIdx < timing.length ∧ timing[c.timingIdx]? ≠ some (id t)) →
      History timing id threads { c.goto t .waiting with mutex := none } := fun hw =>
    h.release ht howner c.entered (fun hholds => hholds.elim) fun _ => hw
  rcases hmine : timing.getD c.timingIdx beyond == id t with - | -
  · have hne : timing.getD c.timingIdx beyond ≠ id t := by simpa using hmine
    have hother : c.timingIdx < timing.length → timing[c.timingIdx]? ≠ some (id t) := by
      intro hlt
      rw [hget hlt]
      exact fun heq => hne (Option.some.inj heq)
    rcases call with - | - | - | -
    · have hlt := hread.resolve_left nofun
      exact hsleep (.inr ⟨hlt, hother hlt⟩)
    · exact hsleep (.inl (hpc ▸ trivial))
    · exact hleave false
    · exact hleave false
  · rcases call with - | - | - | -
    · exact hleave true
    · exact hleave true
    · exact hleave true
    · have hlt := hread.resolve_left nofun
      refine h.keep ht howner (fun _ => ?_) fun hw => hw.elim
      rw [hget hlt, eq_of_beq hmine]

theorem runAs (ht : t ∈ threads) {beyond : ℕ} (hrun : c.runAs timing (id t) beyond t = some c') :
    History timing id threads c' := by
  rcases hpc : c.pc t with - | - | call | call | - | - | entered <;>
    simp only [Config.runAs, Config.run, Config.read, hpc, reduceCtorEq] at hrun
  · split_ifs at hrun with hfree
    obtain rfl := Option.some.inj hrun
    refine h.move ht c.entered (fun _ => rfl) (fun t' _ hholds => ?_)
      (fun hadvance => Pc.noConfusion hadvance) fun hw => .inl ?_
    · exact absurd ((h.owner t' hholds).symm.trans hfree) (Option.some_ne_none _)
    · rw [hpc]
      rcases call with - | - | - | -
      case wake => trivial
      all_goals exact hw.elim
  · split_ifs at hrun with hassert
    · obtain rfl := Option.some.inj hrun
      exact ⟨h.mem, h.owner, h.past, h.turn, h.since⟩
    · obtain rfl := Option.some.inj hrun
      refine h.tested hpc ?_ beyond
      rw [not_and_or, not_not, not_not] at hassert
      exact hassert
  · obtain rfl := Option.some.inj hrun
    exact h.advance hpc
  · have howner : c.mutex = some t := h.owner t (hpc ▸ trivial)
    rcases entered with - | -
    all_goals
      obtain rfl := Option.some.inj hrun
      exact h.release ht howner _ (fun hholds => hholds.elim) fun hw => hw.elim

theorem step (hstep : FreeStep timing id threads c c') : History timing id threads c' := by
  obtain ⟨t, ht, a, hact⟩ := hstep
  rw [Config.stepAs] at hact
  split_ifs at hact
  rcases a with - | - | - | - | beyond
  case run => exact h.runAs ht hact
  case wake =>
    simp only [Config.actAs] at hact
    split_ifs at hact with hpc
    obtain rfl := Option.some.inj hact
    exact h.goto ht (fun hholds => hholds.elim) fun _ => hpc ▸ trivial
  all_goals
    simp only [Config.actAs, Config.callAs] at hact
    split_ifs at hact
    obtain rfl := Option.some.inj hact
    exact h.goto ht (fun hholds => hholds.elim) fun hw => hw.elim

end Step

theorem of_run (hrun : Relation.ReflTransGen (FreeStep timing id threads) .new c) :
    History timing id threads c := by
  induction hrun with
  | refl => exact new timing id threads
  | tail _ hstep ih => exact ih.step hstep

end History

/-! ## Runs that use up the timing -/

/-- **Thread `w` can be stranded**: it waits at index `i`, where the timing
has another id, and other threads have the rest of the timing. -/
def Stranded (timing : List ℕ) (id : ℕ → ℕ) (threads : Set ℕ) (w i : ℕ) : Prop :=
  w ∈ threads ∧ (∀ j < i, ∃ t ∈ threads, timing[j]? = some (id t)) ∧
    WaitsSince timing id threads w i timing.length

/-- The actions of one thread make up a run. -/
theorem run_of_foldlM (ht : t ∈ threads) (as : List Action)
    (h : as.foldlM (fun c a => c.stepAs timing id t a) c = some c') :
    Relation.ReflTransGen (FreeStep timing id threads) c c' :=
  reflTransGen_foldlM (fun _ a _ hstep => ⟨t, ht, a, hstep⟩) h

/-- **A turn**: the thread that the timing has next locks and unlocks. -/
theorem run_turn (ht : t ∈ threads) (hpc : c.pc t = .outside) (hmutex : c.mutex = none)
    (haborted : c.aborted = false) (hturn : timing[c.timingIdx]? = some (id t)) :
    Relation.ReflTransGen (FreeStep timing id threads) c
      { c with timingIdx := c.timingIdx + 1, entered := c.entered ++ [t] } := by
  have hle : ¬ timing.length ≤ c.timingIdx :=
    Nat.not_le.2 (List.getElem?_eq_some_iff.1 hturn).1
  have hback : Function.update c.pc t .outside = c.pc := by rw [← hpc, Function.update_eq_self]
  refine run_of_foldlM ht
    [.lock, .run 0, .run 0, .run 0, .unlock, .run 0, .run 0, .run 0, .run 0] ?_
  simp [Config.stepAs, Config.actAs, Config.callAs, Config.runAs, Config.run, Config.read,
    Config.tested, Config.goto, hpc, hmutex, haborted, hle, hturn, hback]

/-- **The index moves to `n`** by turns of threads outside. -/
theorem run_turns {n : ℕ} (hmutex : c.mutex = none) (haborted : c.aborted = false)
    (hle : c.timingIdx ≤ n)
    (hturns : ∀ j, c.timingIdx ≤ j → j < n →
      ∃ t ∈ threads, c.pc t = .outside ∧ timing[j]? = some (id t)) :
    ∃ entered, Relation.ReflTransGen (FreeStep timing id threads) c
      { c with timingIdx := n, entered := entered } := by
  induction n with
  | zero =>
    have h0 : c.timingIdx = 0 := Nat.le_zero.1 hle
    exact ⟨c.entered, by rw [← h0]⟩
  | succ n ih =>
    rcases Nat.le_succ_iff.1 hle with hle | heq
    · obtain ⟨entered, hrun⟩ := ih hle fun j hj hj' => hturns j hj (by omega)
      obtain ⟨t, ht, hpc, hturn⟩ := hturns n hle (Nat.lt_succ_self n)
      exact ⟨_, hrun.trans (run_turn ht hpc hmutex haborted hturn)⟩
    · rw [Nat.succ_eq_add_one] at heq
      exact ⟨c.entered, by rw [← heq]⟩

/-- A thread whose turn it is not goes to sleep. -/
theorem run_sleep (ht : t ∈ threads) (hpc : c.pc t = .outside) (hmutex : c.mutex = none)
    (haborted : c.aborted = false) (hlt : c.timingIdx < timing.length)
    (hturn : timing[c.timingIdx]? ≠ some (id t)) :
    Relation.ReflTransGen (FreeStep timing id threads) c (c.goto t .waiting) := by
  have hle : ¬ timing.length ≤ c.timingIdx := Nat.not_le.2 hlt
  have hne : timing[c.timingIdx]?.getD 0 ≠ id t := by
    intro heq
    rw [List.getElem?_eq_getElem hlt, Option.getD_some] at heq
    exact hturn (by rw [List.getElem?_eq_getElem hlt, heq])
  refine run_of_foldlM ht [.lock, .run 0, .run 0] ?_
  simp [Config.stepAs, Config.actAs, Config.callAs, Config.runAs, Config.run, Config.read,
    Config.tested, Config.goto, hpc, hmutex, haborted, hle, hne]

/-- It wakes up. -/
theorem run_wake (ht : t ∈ threads) (hpc : c.pc t = .waiting) (hmutex : c.mutex = none)
    (haborted : c.aborted = false) :
    Relation.ReflTransGen (FreeStep timing id threads) c
      { c.goto t (.test .wake) with mutex := some t } := by
  refine run_of_foldlM ht [.wake, .run 0] ?_
  simp [Config.stepAs, Config.actAs, Config.runAs, Config.run, Config.goto, hpc, hmutex, haborted]

theorem exists_read_of_stranded {w i : ℕ} (h : Stranded timing id threads w i) :
    ∃ c, Relation.ReflTransGen (FreeStep timing id threads) .new c ∧ c.aborted = false ∧
      c.read timing w = some timing.length := by
  obtain ⟨hw, hpast, hlt, hget, hrest⟩ := h
  obtain ⟨e₁, hrun₁⟩ := @run_turns timing id threads .new i rfl rfl (Nat.zero_le i) fun j _ hj => by
    obtain ⟨t, ht, hturn⟩ := hpast j hj
    exact ⟨t, ht, rfl, hturn⟩
  have hrun₂ := hrun₁.trans (run_sleep hw rfl rfl rfl hlt hget)
  obtain ⟨e₂, hrun₃⟩ := @run_turns timing id threads
    (Config.goto { Config.new with timingIdx := i, entered := e₁ } w .waiting) timing.length
    rfl rfl (Nat.le_of_lt hlt) fun j hj hj' => by
      obtain ⟨t, ht, hne, hturn⟩ := hrest j hj hj'
      exact ⟨t, ht, Config.pc_goto_of_ne _ hne _, hturn⟩
  refine ⟨_, (hrun₂.trans hrun₃).trans (run_wake hw (Config.pc_goto_self ..) rfl rfl), rfl, ?_⟩
  rw [Config.read, Config.pc_goto_self]
  rfl

/-- **Every read is within the timing** if and only if no thread can be
stranded. -/
theorem reads_within_iff (timing : List ℕ) (id : ℕ → ℕ) (threads : Set ℕ) :
    (∀ c, Relation.ReflTransGen (FreeStep timing id threads) .new c → c.aborted = false →
      ∀ t i, c.read timing t = some i → i < timing.length) ↔
    ¬ ∃ w i, Stranded timing id threads w i := by
  constructor
  · rintro hall ⟨w, i, h⟩
    obtain ⟨c, hrun, haborted, hread⟩ := exists_read_of_stranded h
    exact Nat.lt_irrefl _ (hall c hrun haborted w _ hread)
  · intro hnone c hrun _ t i hread
    have h := History.of_run hrun
    rcases hpc : c.pc t with - | - | call | call | - | - | entered <;>
      simp only [Config.read, hpc, reduceCtorEq] at hread
    split_ifs at hread with hassert
    obtain rfl := Option.some.inj hread
    by_contra hge
    have hwake : call = .wake := by
      by_contra hne
      exact hassert ⟨hne, hge⟩
    have hidx : c.timingIdx = timing.length := Nat.le_antisymm h.timingIdx_le (Nat.not_lt.1 hge)
    obtain ⟨i, hi, hsince⟩ := h.since t (by rw [hpc, hwake]; trivial)
    refine hnone ⟨t, i, h.mem t (by rw [hpc]; exact nofun), fun j hj => ?_, hidx ▸ hsince⟩
    exact h.past j (Nat.lt_of_lt_of_le hj hi)

/-- Thread `1` waits for thread `0`, which has the whole timing, and reads
behind its end; both lock and unlock as they should. -/
theorem read_lateWaiter : ∃ c, Relation.ReflTransGen (Step [0]) .new c ∧ c.aborted = false ∧
    c.read [0] 1 = some 1 ∧ ¬ 1 < [0].length := by
  have hread : (((lateWaiter 1).take 14).foldlM (fun (c : Config) ta => c.step [0] ta.1 ta.2)
      Config.new).map (fun c => (c.aborted, c.read [0] 1)) = some (false, some 1) := by decide
  obtain ⟨c, hc, hvalues⟩ := Option.map_eq_some_iff.1 hread
  obtain ⟨haborted, hindex⟩ := Prod.mk.inj hvalues
  exact ⟨c, reflTransGen_foldlM (fun _ ta _ hstep => ⟨ta.1, ta.2, hstep⟩) hc, haborted, hindex,
    by decide⟩

end SeqMutex

end CppEtudes
