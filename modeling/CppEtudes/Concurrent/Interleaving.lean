import CppEtudes.Concurrent.Shared
import Mathlib.Algebra.Ring.Nat
import Mathlib.Logic.Relation

/-!
# Threads on the lock-free list

What holds at every point of every interleaving. The access of a thread
changes the memory in one of four ways: a link, a mark, an unlinking and
the write to a node that is not linked yet. What a call has read stays
true under the accesses of the other threads.
-/

namespace CppEtudes

namespace Concurrent

open Links

variable {τ : Type}

/-! ## Calls -/

/-- The current node is linked, and a mark that was read on it is final. -/
structure Reads (m : Memory τ) (log : List Event) (f : Frame τ) (curr : ℕ) : Prop where
  linked : Linked log curr
  pcurr : f.pcurr.ptr = some curr
  cnext : ∀ b, f.cnext.ptr = some b → Linked log b
  marked : f.cnext.mark = true → m.word (some curr) = f.cnext

/-- What a call knows at its next access. -/
def Known (m : Memory τ) (log : List Event) (f : Frame τ) : Pc → Prop
  | .start => True
  | .next => True
  | .check curr => Reads m log f curr
  | .unlink curr => Reads m log f curr ∧ f.cnext.mark = true
  | .prepare => ∀ b, f.pcurr.ptr = some b → f.key < m.key b
  | .link => (∀ b, f.pcurr.ptr = some b → f.key < m.key b) ∧
      ∀ n, f.call = .insert n → m.ptr (some n) = f.pcurr.ptr ∧ m.marked n = false
  | .mark curr => Reads m log f curr ∧ m.key curr = f.key
  | .detach curr => Linked log curr ∧ m.marked curr = true ∧ m.ptr (some curr) = f.cnext.ptr
  | .inspect _ => True

/-- It is about the variables of the call, not about where it started. -/
theorem Known.congr {m : Memory τ} {log : List Event} {f f' : Frame τ} {pc : Pc}
    (h : Known m log f pc) (hkey : f'.key = f.key) (hcall : f'.call = f.call)
    (hpcurr : f'.pcurr = f.pcurr) (hcnext : f'.cnext = f.cnext) : Known m log f' pc := by
  have hreads {curr : ℕ} (h : Reads m log f curr) : Reads m log f' curr :=
    ⟨h.linked, hpcurr ▸ h.pcurr, hcnext ▸ h.cnext, hcnext ▸ h.marked⟩
  rcases pc with - | - | curr | curr | - | - | curr | curr | curr
  · trivial
  · trivial
  · exact hreads h
  · exact ⟨hreads h.1, hcnext ▸ h.2⟩
  · rwa [Known, hpcurr, hkey]
  · rwa [Known, hpcurr, hkey, hcall]
  · exact ⟨hreads h.1, hkey ▸ h.2⟩
  · rwa [Known, hcnext]
  · trivial

/-- **A call in progress.** -/
structure FrameInv (m : Memory τ) (log : List Event) (f : Frame τ) : Prop where
  head : f.head = none
  prev : Below m log f.key f.prev
  pcurr : ∀ b, f.pcurr.ptr = some b → Linked log b
  own : ∀ n, f.call = .insert n → ¬ Linked log n ∧ n < m.fresh ∧ m.key n = f.key
  known : Known m log f f.pc

theorem FrameInv.known_at {m : Memory τ} {log : List Event} {f : Frame τ} {pc : Pc}
    (h : FrameInv m log f) (hpc : f.pc = pc) : Known m log f pc := hpc ▸ h.known

/-- What no access of any thread takes back. -/
structure Keeps (m : Memory τ) (log : List Event) (m' : Memory τ) (log' : List Event) : Prop where
  linked : ∀ a, Linked log a → Linked log' a
  key : ∀ a < m.fresh, m'.key a = m.key a
  fresh : m.fresh ≤ m'.fresh
  frozen : ∀ a, Linked log a → m.marked a = true → m'.word (some a) = m.word (some a)

section Calls

variable {m m' : Memory τ} {log log' : List Event} {nodes : List ℕ} {f : Frame τ} {curr : ℕ}

theorem Keeps.refl : Keeps m log m log :=
  ⟨fun _ h => h, fun _ _ => rfl, Nat.le_refl _, fun _ _ _ => rfl⟩

/-- **What a call knows stays true** under the accesses of the others. -/
theorem FrameInv.mono (h : FrameInv m log f) (hlt : ∀ a, Linked log a → a < m.fresh)
    (hk : Keeps m log m' log')
    (hown : ∀ n, f.call = .insert n → ¬ Linked log' n ∧ m'.word (some n) = m.word (some n)) :
    FrameInv m' log' f := by
  have hkey {a : ℕ} (ha : Linked log a) : m'.key a = m.key a := hk.key a (hlt a ha)
  have hreads {curr : ℕ} (hr : Reads m log f curr) : Reads m' log' f curr := by
    refine ⟨hk.linked _ hr.linked, hr.pcurr, fun b hb => hk.linked b (hr.cnext b hb), fun hm => ?_⟩
    rw [hk.frozen curr hr.linked (by rw [Memory.marked, hr.marked hm]; exact hm), hr.marked hm]
  have habove (ha : ∀ b, f.pcurr.ptr = some b → f.key < m.key b) :
      ∀ b, f.pcurr.ptr = some b → f.key < m'.key b := by
    intro b hb
    rw [hkey (h.pcurr b hb)]
    exact ha b hb
  refine ⟨h.head, fun a ha => ?_, fun b hb => hk.linked b (h.pcurr b hb), fun n hn => ?_, ?_⟩
  · obtain ⟨hl, hlt'⟩ := h.prev a ha
    exact ⟨hk.linked a hl, by rwa [hkey hl]⟩
  · obtain ⟨-, hfresh, hnkey⟩ := h.own n hn
    exact ⟨(hown n hn).1, hfresh.trans_le hk.fresh, (hk.key n hfresh).trans hnkey⟩
  · have hknown := h.known
    rcases hpc : f.pc with - | - | curr | curr | - | - | curr | curr | curr
    all_goals rw [hpc] at hknown
    · trivial
    · trivial
    · exact hreads hknown
    · exact ⟨hreads hknown.1, hknown.2⟩
    · exact habove hknown
    · refine ⟨habove hknown.1, fun n hn => ?_⟩
      rw [Memory.ptr, Memory.marked, (hown n hn).2]
      exact hknown.2 n hn
    · exact ⟨hreads hknown.1, (hkey hknown.1.linked).trans hknown.2⟩
    · obtain ⟨hl, hm, hp⟩ := hknown
      have hfrozen := hk.frozen curr hl hm
      refine ⟨hk.linked curr hl, ?_, ?_⟩
      · rw [Memory.marked, hfrozen]
        exact hm
      · rw [Memory.ptr, hfrozen]
        exact hp
    · trivial

/-- **What an access of a call may do**: the list stays in order, nothing
the others know is lost, and the call goes on in order. -/
structure Safe (m : Memory τ) (log : List Event) (f : Frame τ) (e : Effect τ) : Prop where
  shared : ∃ nodes, Shared e.memory (log ++ e.event.toList) nodes
  keeps : Keeps m log e.memory (log ++ e.event.toList)
  others : ∀ n, ¬ Linked log n → f.call ≠ .insert n →
    ¬ Linked (log ++ e.event.toList) n ∧ e.memory.word (some n) = m.word (some n)
  frame : ∀ f', e.outcome = .running f' →
    FrameInv e.memory (log ++ e.event.toList) f' ∧ (f'.call = f.call ∨ f'.call = .cleanup)

/-- An access that only reads. -/
theorem Safe.of_read {o : Outcome τ} (h : Shared m log nodes)
    (ho : ∀ f', o = .running f' → FrameInv m log f' ∧ (f'.call = f.call ∨ f'.call = .cleanup)) :
    Safe m log f ⟨m, o, none⟩ := by
  have hlog : log ++ (none : Option Event).toList = log := List.append_nil log
  refine ⟨⟨nodes, ?_⟩, ?_, fun n hn _ => ⟨?_, rfl⟩, fun f' hf' => ?_⟩
  · rwa [hlog]
  · rw [hlog]
    exact Keeps.refl
  · rwa [hlog]
  · rw [hlog]
    exact ho f' hf'

/-- A call that goes on at another place with the same variables. -/
theorem FrameInv.goto (h : FrameInv m log f) {pc : Pc} (hknown : Known m log f pc) :
    FrameInv m log (f.goto pc) := by
  exact ⟨h.head, h.prev, h.pcurr, h.own, hknown.congr rfl rfl rfl rfl⟩

theorem FrameInv.notFound (h : FrameInv m log f)
    (hkey : ∀ b, f.pcurr.ptr = some b → f.key < m.key b) {f' : Frame τ}
    (hf' : f.notFound = .running f') :
    FrameInv m log f' ∧ (f'.call = f.call ∨ f'.call = .cleanup) := by
  unfold Frame.notFound at hf'
  rcases hcall : f.call with n | - | - | -
  all_goals rw [hcall] at hf'
  · obtain rfl := Outcome.running.inj hf'
    exact ⟨h.goto hkey, Or.inl hcall⟩
  all_goals exact nomatch hf'

theorem FrameInv.found (h : FrameInv m log f) (hreads : Reads m log f curr)
    (hkey : m.key curr = f.key) {f' : Frame τ} (hf' : f.found curr = .running f') :
    FrameInv m log f' ∧ (f'.call = f.call ∨ f'.call = .cleanup) := by
  unfold Frame.found at hf'
  rcases hcall : f.call with n | - | - | -
  all_goals rw [hcall] at hf'
  · exact nomatch hf'
  · obtain rfl := Outcome.running.inj hf'
    exact ⟨h.goto ⟨hreads, hkey⟩, Or.inl hcall⟩
  · obtain rfl := Outcome.running.inj hf'
    exact ⟨h.goto trivial, Or.inl hcall⟩
  · exact nomatch hf'

/-- An access that changes one word: one without a mark, or one of the
node that the call inserts. -/
theorem Safe.of_write {p : Option ℕ} {w : Word τ} {o : Outcome τ} {ev : Option Event}
    (hshared : ∃ nodes, Shared (m.write p w) (log ++ ev.toList) nodes)
    (hmark : ∀ a, p = some a → Linked log a → m.marked a = false)
    (hplace : ∀ n, p = some n → ¬ Linked log n → f.call = .insert n)
    (hev : ∀ n, Linked (log ++ ev.toList) n → Linked log n ∨ f.call = .insert n)
    (ho : ∀ f', o = .running f' → FrameInv (m.write p w) (log ++ ev.toList) f' ∧
      (f'.call = f.call ∨ f'.call = .cleanup)) :
    Safe m log f ⟨m.write p w, o, ev⟩ where
  shared := hshared
  keeps := by
    refine ⟨fun a ⟨e, he, ha⟩ => ⟨e, List.mem_append_left _ he, ha⟩, fun _ _ => rfl, Nat.le_refl _,
      fun a ha hm => Memory.word_write_of_ne ?_⟩
    rintro rfl
    exact absurd (hm.symm.trans (hmark a rfl ha)) (by decide)
  others := fun n hn hcall =>
    ⟨fun hl => (hev n hl).elim hn hcall,
      Memory.word_write_of_ne fun hpn => hcall (hplace n hpn.symm hn)⟩
  frame := ho

/-- An access that reads and goes on at another place. -/
theorem Safe.goto (h : Shared m log nodes) (hf : FrameInv m log f) (pc : Pc)
    (hknown : Known m log f pc) : Safe m log f ⟨m, .running (f.goto pc), none⟩ := by
  refine Safe.of_read h fun f' hf' => ?_
  obtain rfl := Outcome.running.inj hf'
  exact ⟨hf.goto hknown, Or.inl rfl⟩

theorem Safe.stay (h : Shared m log nodes) (hf : FrameInv m log f) :
    Safe m log f ⟨m, .running f, none⟩ := by
  refine Safe.of_read h fun f' hf' => ?_
  obtain rfl := Outcome.running.inj hf'
  exact ⟨hf, Or.inl rfl⟩

/-- A swap at `prev` that takes a marked node out of the list. -/
theorem safe_unlink_prev {q : Option ℕ} {o : Outcome τ} {t t' : τ} (h : Shared m log nodes)
    (hf : FrameInv m log f) (hword : m.word f.prev = ⟨some curr, false, t⟩)
    (hmark : m.marked curr = true) (hq : m.ptr (some curr) = q)
    (ho : ∀ f', o = .running f' → FrameInv (m.write f.prev ⟨q, false, t'⟩) log f' ∧
      (f'.call = f.call ∨ f'.call = .cleanup)) :
    Safe m log f ⟨m.write f.prev ⟨q, false, t'⟩, o, none⟩ := by
  have hlog : log ++ (none : Option Event).toList = log := List.append_nil log
  refine Safe.of_write ?_ (fun a ha _ => Memory.marked_of_word hword ha)
    (fun n hn hl => absurd (hf.prev n hn).1 hl) ?_ ?_
  all_goals rw [hlog]
  · exact h.unlink hf.prev hword hmark hq
  · exact fun n hn => Or.inl hn
  · exact ho

end Calls

section Access

variable [DecidableEq τ] {m m' : Memory τ} {log : List Event} {nodes : List ℕ} {f : Frame τ}
  {curr : ℕ}

theorem Memory.cas_eq_some {p : Option ℕ} {old new : Word τ} (h : m.cas p old new = some m') :
    m.word p = old ∧ m' = m.write p new := by
  rw [cas, Option.ite_none_right_eq_some] at h
  exact ⟨h.1, (Option.some.inj h.2).symm⟩

variable [Zero τ] [One τ] [Add τ] (h : Shared m log nodes) (hf : FrameInv m log f)
include h hf

theorem safe_start (hpc : f.pc = .start) : Safe m log f (f.step m) := by
  simp only [Frame.step, hpc]
  refine Safe.of_read h fun f' hf' => ?_
  obtain rfl := Outcome.running.inj hf'
  refine ⟨⟨hf.head, ?_, fun b hb => h.linked b ?_, hf.own, trivial⟩, Or.inl rfl⟩
  · intro a ha
    exact absurd (ha.symm.trans hf.head) (by simp)
  · rw [hf.head] at hb
    exact List.mem_of_mem_head? (h.chain.next_eq.symm.trans hb)

theorem safe_next (hpc : f.pc = .next) : Safe m log f (f.step m) := by
  rcases hcurr : f.pcurr.ptr with - | curr
  · simp only [Frame.step, hpc, hcurr]
    refine Safe.of_read h fun f' => hf.notFound fun b hb => ?_
    exact absurd (hb.symm.trans hcurr) (by simp)
  · simp only [Frame.step, hpc, hcurr]
    refine Safe.of_read h fun f' hf' => ?_
    obtain rfl := Outcome.running.inj hf'
    have hl : Linked log curr := hf.pcurr curr hcurr
    refine ⟨⟨hf.head, hf.prev, hf.pcurr, hf.own, hl, hcurr, fun b hb => ?_, fun _ => rfl⟩,
      Or.inl rfl⟩
    exact h.closed curr b hl hb

theorem safe_check (hpc : f.pc = .check curr) : Safe m log f (f.step m) := by
  have hreads : Reads m log f curr := hf.known_at hpc
  simp only [Frame.step, hpc]
  split_ifs with hprev hmark hle hkey
  · exact Safe.goto h hf .start trivial
  · exact Safe.goto h hf (.unlink curr) ⟨hreads, hmark⟩
  · exact Safe.of_read h fun f' => hf.found hreads hkey
  · refine Safe.of_read h fun f' => hf.notFound fun b hb => ?_
    obtain rfl : curr = b := Option.some.inj (hreads.pcurr.symm.trans hb)
    omega
  · -- `prev` moves on to the current node
    refine Safe.of_read h fun f' hf' => ?_
    obtain rfl := Outcome.running.inj hf'
    refine ⟨⟨hf.head, fun a ha => ?_, hreads.cnext, hf.own, trivial⟩, Or.inl rfl⟩
    obtain rfl : curr = a := Option.some.inj ha
    exact ⟨hreads.linked, by dsimp only; omega⟩

theorem safe_unlink (hpc : f.pc = .unlink curr) : Safe m log f (f.step m) := by
  obtain ⟨hreads, hmark⟩ : Reads m log f curr ∧ f.cnext.mark = true := hf.known_at hpc
  have hcurr := hreads.marked hmark
  rcases hcas : m.cas f.prev ⟨some curr, false, f.pcurr.tag⟩
    ⟨f.cnext.ptr, false, f.pcurr.tag + 1⟩ with - | m'
  · simp only [Frame.step, hpc, hcas]
    exact Safe.goto h hf .start trivial
  · obtain ⟨hword, rfl⟩ := Memory.cas_eq_some hcas
    simp only [Frame.step, hpc, hcas]
    refine safe_unlink_prev h hf hword ?_ ?_ fun f' hf' => ?_
    · rw [Memory.marked, hcurr, hmark]
    · rw [Memory.ptr, hcurr]
    · obtain rfl := Outcome.running.inj hf'
      exact ⟨⟨hf.head, hf.prev, hreads.cnext, hf.own, trivial⟩, Or.inl rfl⟩

theorem safe_detach (hpc : f.pc = .detach curr) : Safe m log f (f.step m) := by
  obtain ⟨-, hmark, hptr⟩ : Linked log curr ∧ m.marked curr = true ∧
      m.ptr (some curr) = f.cnext.ptr := hf.known_at hpc
  rcases hcas : m.cas f.prev ⟨some curr, false, f.pcurr.tag⟩
    ⟨f.cnext.ptr, false, f.pcurr.tag + 1⟩ with - | m'
  · simp only [Frame.step, hpc, hcas]
    refine Safe.of_read h fun f' hf' => ?_
    obtain rfl := Outcome.running.inj hf'
    exact ⟨⟨hf.head, hf.prev, hf.pcurr, fun n hn => (nomatch hn), trivial⟩, Or.inr rfl⟩
  · obtain ⟨hword, rfl⟩ := Memory.cas_eq_some hcas
    simp only [Frame.step, hpc, hcas]
    exact safe_unlink_prev h hf hword hmark hptr fun f' hf' => nomatch hf'

theorem safe_prepare (hpc : f.pc = .prepare) : Safe m log f (f.step m) := by
  rcases hcall : f.call with n | - | - | -
  all_goals simp only [Frame.step, hpc, hcall]
  · obtain ⟨hl, -, -⟩ := hf.own n hcall
    have hlog : log ++ (none : Option Event).toList = log := List.append_nil log
    refine Safe.of_write ⟨nodes, ?_⟩ (fun a ha hla => ?_) (fun a ha _ => ?_) (fun a ha => ?_)
      fun f' hf' => ?_
    · rw [hlog]
      refine h.congr (Memory.word_write_of_ne (by simp)) (fun a ha => ⟨?_, rfl⟩) (Nat.le_refl _)
      refine Memory.word_write_of_ne fun han => hl ?_
      exact Option.some.inj han ▸ ha
    · exact absurd (Option.some.inj ha ▸ hla) hl
    · exact hcall.trans (congrArg _ (Option.some.inj ha))
    · rw [hlog] at ha
      exact Or.inl ha
    · obtain rfl := Outcome.running.inj hf'
      rw [hlog]
      have habove : ∀ b, f.pcurr.ptr = some b → f.key < m.key b := hf.known_at hpc
      refine ⟨⟨hf.head, hf.prev, hf.pcurr, hf.own, habove, fun a ha => ?_⟩, Or.inl rfl⟩
      obtain rfl : n = a := Call.insert.inj (hcall.symm.trans ha)
      rw [Memory.ptr, Memory.marked, Memory.word_write_self]
      exact ⟨rfl, rfl⟩
  all_goals exact Safe.stay h hf

theorem safe_link (hpc : f.pc = .link) : Safe m log f (f.step m) := by
  obtain ⟨habove, hnode⟩ : (∀ b, f.pcurr.ptr = some b → f.key < m.key b) ∧
      ∀ n, f.call = .insert n → m.ptr (some n) = f.pcurr.ptr ∧ m.marked n = false := hf.known_at hpc
  rcases hcall : f.call with n | - | - | -
  · obtain ⟨hl, hfresh, hkey⟩ := hf.own n hcall
    rcases hcas : m.cas f.prev ⟨f.pcurr.ptr, false, f.pcurr.tag⟩
      ⟨some n, false, f.pcurr.tag + 1⟩ with - | m'
    · simp only [Frame.step, hpc, hcall, hcas]
      exact Safe.goto h hf .start trivial
    · obtain ⟨hword, rfl⟩ := Memory.cas_eq_some hcas
      simp only [Frame.step, hpc, hcall, hcas]
      refine Safe.of_write (h.link hf.prev hword hl hfresh hkey (hnode n hcall) habove)
        (fun a ha _ => Memory.marked_of_word hword ha)
        (fun a ha hla => absurd (hf.prev a ha).1 hla) (fun a ha => ?_) fun f' hf' => nomatch hf'
      refine (linked_append_inserted.1 ha).imp_right ?_
      rintro rfl
      exact hcall
  all_goals simp only [Frame.step, hpc, hcall]; exact Safe.stay h hf

theorem safe_mark (hpc : f.pc = .mark curr) : Safe m log f (f.step m) := by
  obtain ⟨hreads, hkey⟩ : Reads m log f curr ∧ m.key curr = f.key := hf.known_at hpc
  rcases hcas : m.cas (some curr) { f.cnext with mark := false }
    ⟨f.cnext.ptr, true, f.cnext.tag + 1⟩ with - | m'
  · simp only [Frame.step, hpc, hcas]
    exact Safe.goto h hf .start trivial
  · obtain ⟨hword, rfl⟩ := Memory.cas_eq_some hcas
    simp only [Frame.step, hpc, hcas]
    refine Safe.of_write ⟨nodes, h.mark hreads.linked hword hkey⟩
      (fun a ha _ => Memory.marked_of_word hword ha)
      (fun a ha hla => absurd (Option.some.inj ha ▸ hreads.linked) hla)
      (fun a ha => Or.inl (linked_append_removed.1 ha)) fun f' hf' => ?_
    obtain rfl := Outcome.running.inj hf'
    refine ⟨⟨hf.head, fun a ha => ?_, fun b hb => ?_, fun n hn => ?_, ?_, ?_, ?_⟩, Or.inl rfl⟩
    · exact ⟨linked_append_removed.2 (hf.prev a ha).1, (hf.prev a ha).2⟩
    · exact linked_append_removed.2 (hf.pcurr b hb)
    · exact ⟨fun hl => (hf.own n hn).1 (linked_append_removed.1 hl), (hf.own n hn).2⟩
    · exact linked_append_removed.2 hreads.linked
    · rw [Memory.marked, Memory.word_write_self]
    · rw [Memory.ptr, Memory.word_write_self]
      rfl

/-- **Every access is safe.** -/
theorem Frame.safe_step : Safe m log f (f.step m) := by
  rcases hpc : f.pc with - | - | curr | curr | - | - | curr | curr | curr
  · exact safe_start h hf hpc
  · exact safe_next h hf hpc
  · exact safe_check h hf hpc
  · exact safe_unlink h hf hpc
  · exact safe_prepare h hf hpc
  · exact safe_link h hf hpc
  · exact safe_mark h hf hpc
  · exact safe_detach h hf hpc
  · simp only [Frame.step, hpc]
    exact Safe.of_read h fun f' hf' => nomatch hf'

end Access

/-! ## Runs -/

namespace Config

variable {θ : Type}

/-- **The invariant of the threads.** No two of them insert one node. -/
structure Inv (c : Config θ τ) : Prop where
  shared : ∃ nodes, Shared c.memory c.log nodes
  frame : ∀ t f, c.thread t = some f → FrameInv c.memory c.log f
  own : ∀ t t' f f' n, c.thread t = some f → c.thread t' = some f' →
    f.call = .insert n → f'.call = .insert n → t = t'

variable {c c' : Config θ τ}

theorem Inv.init [Zero τ] : Inv (init : Config θ τ) :=
  ⟨⟨[], Shared.empty⟩, fun _ _ h => (nomatch h), fun _ _ _ _ _ h => (nomatch h)⟩

variable [DecidableEq θ]

/-- A thread changes the memory and goes on, or returns, with the others
where they are. -/
theorem Inv.update (h : Inv c) {t : θ} {m : Memory τ} {log : List Event} {o : Option (Frame τ)}
    (hshared : ∃ nodes, Shared m log nodes) (hkeeps : Keeps c.memory c.log m log)
    (hothers : ∀ t' f n, t' ≠ t → c.thread t' = some f → f.call = .insert n →
      ¬ Linked log n ∧ m.word (some n) = c.memory.word (some n))
    (hframe : ∀ f, o = some f → FrameInv m log f)
    (hown : ∀ t' f f' n, o = some f → t' ≠ t → c.thread t' = some f' → f.call = .insert n →
      f'.call ≠ .insert n) : Inv ⟨m, Function.update c.thread t o, log⟩ := by
  obtain ⟨nodes, hnodes⟩ := h.shared
  have hself {f : Frame τ} : Function.update c.thread t o t = some f ↔ o = some f := by
    rw [Function.update_self]
  have hother {t' : θ} {f : Frame τ} (ht : t' ≠ t) :
      Function.update c.thread t o t' = some f ↔ c.thread t' = some f := by
    rw [Function.update_of_ne ht]
  refine ⟨hshared, fun t' f hf => ?_, fun t₁ t₂ f₁ f₂ n h₁ h₂ hn₁ hn₂ => ?_⟩
  · rcases eq_or_ne t' t with rfl | ht
    · exact hframe f (hself.1 hf)
    · have hf := (hother ht).1 hf
      exact (h.frame t' f hf).mono hnodes.fresh hkeeps fun n => hothers t' f n ht hf
  · rcases eq_or_ne t₁ t with rfl | ht₁
    · rcases eq_or_ne t₂ t₁ with rfl | ht₂
      · rfl
      · exact absurd hn₂ (hown t₂ f₁ f₂ n (hself.1 h₁) ht₂ ((hother ht₂).1 h₂) hn₁)
    · rcases eq_or_ne t₂ t with rfl | ht₂
      · exact absurd hn₁ (hown t₁ f₂ f₁ n (hself.1 h₂) ht₁ ((hother ht₁).1 h₁) hn₂)
      · exact h.own t₁ t₂ f₁ f₂ n ((hother ht₁).1 h₁) ((hother ht₂).1 h₂) hn₁ hn₂

/-- A call that brings no node. -/
theorem Inv.enter (h : Inv c) (t : θ) {f : Frame τ} (hf : FrameInv c.memory c.log f)
    (hcall : ∀ n, f.call ≠ .insert n) :
    Inv { c with thread := Function.update c.thread t (some f) } := by
  refine h.update h.shared Keeps.refl (fun t' f' n _ hf' hn => ?_) (fun f' hf' => ?_)
    fun t' f' _ n hf' _ _ hn => ?_
  · exact ⟨((h.frame t' f' hf').own n hn).1, rfl⟩
  · exact Option.some.inj hf' ▸ hf
  · exact absurd hn (Option.some.inj hf' ▸ hcall n)

/-- A call that starts at the head. -/
theorem frameInv_start [Zero τ] {m : Memory τ} {log : List Event} {call : Call} {k : ℕ}
    (hown : ∀ n, call = .insert n → ¬ Linked log n ∧ n < m.fresh ∧ m.key n = k) :
    FrameInv m log ⟨call, none, k, none, ⟨none, false, 0⟩, ⟨none, false, 0⟩, .start⟩ :=
  ⟨rfl, fun _ h => (nomatch h), fun _ h => (nomatch h), hown, trivial⟩

theorem Inv.callInsert [Zero τ] (h : Inv c) (t : θ) (key value : ℕ) :
    Inv (c.callInsert t key value) := by
  obtain ⟨nodes, hnodes⟩ := h.shared
  have hnew : ¬ Linked c.log c.memory.fresh := fun hl => Nat.lt_irrefl _ (hnodes.fresh _ hl)
  have hword {a : ℕ} (ha : a < c.memory.fresh) :
      (c.memory.newNode key value).word (some a) = c.memory.word (some a) :=
    Function.update_of_ne (fun hae => ha.ne (Option.some.inj hae)) _ _
  have hkey {a : ℕ} (ha : a < c.memory.fresh) :
      (c.memory.newNode key value).key a = c.memory.key a := Function.update_of_ne ha.ne _ _
  have hhead : (c.memory.newNode key value).word none = c.memory.word none := rfl
  refine h.update ⟨nodes, ?_⟩ ⟨fun _ ha => ha, fun a ha => hkey ha, Nat.le_succ _, ?_⟩ ?_ ?_ ?_
  · refine hnodes.congr hhead (fun a ha => ?_) (Nat.le_succ _)
    exact ⟨hword (hnodes.fresh a ha), hkey (hnodes.fresh a ha)⟩
  · exact fun a ha _ => hword (hnodes.fresh a ha)
  · intro t' f n _ hf hn
    obtain ⟨hl, hlt, -⟩ := (h.frame t' f hf).own n hn
    exact ⟨hl, hword hlt⟩
  · intro f hf
    obtain rfl := Option.some.inj hf
    refine frameInv_start fun n hn => ?_
    obtain rfl := Call.insert.inj hn
    exact ⟨hnew, Nat.lt_succ_self _, rfl⟩
  · intro t' f f' n hf _ hf' hn hn'
    obtain rfl := Option.some.inj hf
    obtain rfl := Call.insert.inj hn
    exact Nat.lt_irrefl _ ((h.frame t' f' hf').own _ hn').2.1

variable [DecidableEq τ] [Zero τ] [One τ] [Add τ]

theorem Inv.advance (h : Inv c) {t : θ} {f : Frame τ} (ht : c.thread t = some f) :
    Inv (c.advance t f) := by
  obtain ⟨nodes, hnodes⟩ := h.shared
  have hsafe := f.safe_step hnodes (h.frame t f ht)
  have hrunning {f' : Frame τ} (hf' : (f.step c.memory).outcome.frame? = some f') :
      (f.step c.memory).outcome = .running f' := by
    rcases ho : (f.step c.memory).outcome with f'' | r
    · rw [ho] at hf'
      exact congrArg _ (Option.some.inj hf')
    · rw [ho] at hf'
      exact nomatch hf'
  -- no other thread inserts the node of this one
  have hne {t' : θ} {f' : Frame τ} {n : ℕ} (htt : t' ≠ t) (hf' : c.thread t' = some f')
      (hn : f'.call = .insert n) : f.call ≠ .insert n :=
    fun hfn => htt (h.own t' t f' f n hf' ht hn hfn)
  refine h.update hsafe.shared hsafe.keeps (fun t' f' n htt hf' hn => ?_)
    (fun f' hf' => (hsafe.frame f' (hrunning hf')).1) fun t' f' f'' n hf' htt hf'' hn hn' => ?_
  · exact hsafe.others n ((h.frame t' f' hf').own n hn).1 (hne htt hf' hn)
  · rcases (hsafe.frame f' (hrunning hf')).2 with hcall | hcall
    · exact hne htt hf'' hn' (hcall.symm.trans hn)
    · exact nomatch hcall.symm.trans hn

theorem Inv.step (h : Inv c) (hstep : Step c c') : Inv c' := by
  rcases hstep with ⟨key, value, -⟩ | ⟨key, -⟩ | ⟨key, -⟩ | ht
  · exact h.callInsert _ key value
  · exact h.enter _ (frameInv_start fun _ hn => nomatch hn) fun _ hn => nomatch hn
  · exact h.enter _ (frameInv_start fun _ hn => nomatch hn) fun _ hn => nomatch hn
  · exact h.advance ht

theorem Inv.run (hrun : Relation.ReflTransGen Step (Config.init : Config θ τ) c) : Inv c := by
  induction hrun with
  | refl => exact Inv.init
  | tail _ hstep ih => exact ih.step hstep

/-- **The list under any interleaving.** The chain from the head is
strictly ascending, so that no key stands in it twice, and the
insertions and removals of a key alternate. -/
theorem ascending_and_alternates
    (hrun : Relation.ReflTransGen Step (Config.init : Config θ τ) c) :
    (∃ nodes, Chain c.memory.ptr none nodes ∧ (nodes.map c.memory.key).Pairwise (· < ·) ∧
      (nodes.map c.memory.key).Nodup) ∧
    ∀ k, Alternates (history c.log k) := by
  obtain ⟨nodes, hnodes⟩ := (Inv.run hrun).shared
  have hsorted : (nodes.map c.memory.key).Pairwise (· < ·) := List.pairwise_map.2 hnodes.sorted
  exact ⟨⟨nodes, hnodes.chain, hsorted, hsorted.imp Nat.ne_of_lt⟩, hnodes.recorded.alternates⟩

/-- The next access of a thread, if it is in a call. -/
def tick (c : Config θ τ) (t : θ) : Config θ τ :=
  match c.thread t with
  | some f => c.advance t f
  | none => c

theorem reflTransGen_ticks (c : Config θ τ) (ts : List θ) :
    Relation.ReflTransGen Step c (ts.foldl tick c) := by
  induction ts generalizing c with
  | nil => exact .refl
  | cons t ts ih =>
    refine .trans ?_ (ih (c.tick t))
    unfold tick
    rcases ht : c.thread t with - | f
    · exact .refl
    · exact .single (.advance ht)

/-- A thread inserts the key `5` and another removes it, both in their
calls from the start. -/
def insertRemove : Config Bool ℕ :=
  [true, true, true, true, false, false, false, false, false].foldl tick
    ((init.callInsert true 5 7).callRemove false 5)

theorem ascending_and_alternates_insertRemove :
    history insertRemove.log 5 = [.inserted, .removed] ∧
    (∃ nodes, Chain insertRemove.memory.ptr none nodes ∧
      (nodes.map insertRemove.memory.key).Pairwise (· < ·) ∧
      (nodes.map insertRemove.memory.key).Nodup) ∧
    ∀ k, Alternates (history insertRemove.log k) := by
  have hcalls : Relation.ReflTransGen Step (init : Config Bool ℕ)
      ((init.callInsert true 5 7).callRemove false 5) :=
    .tail (.single (.insert 5 7 rfl)) (.remove 5 rfl)
  exact ⟨by decide +kernel, ascending_and_alternates (hcalls.trans (reflTransGen_ticks _ _))⟩

end Config

end Concurrent

end CppEtudes
