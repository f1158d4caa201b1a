import Mathlib.Data.Set.Finite.Basic
import Mathlib.Logic.Function.Basic
import Mathlib.Tactic.Common

/-!
# Linearizable objects

An object that many threads call at once. The *atomic* object answers
each call at one moment between the call and its return; a history of
calls and returns is linearizable if the atomic object has it.

An implementation often knows only later at which moment a call that
changes nothing was answered: it has seen the object in some state on its
way, and returns what was right then. The *watched* object keeps, for
each open call, the answers that were right at some moment since the
call began, and may return any of them. It has no history that the atomic
object does not have (`Watched.to_linearizable`).
-/

namespace CppEtudes

namespace Linearization

variable {θ σ Op Res : Type}

/-- What a client sees of a thread. -/
inductive Action (θ Op Res : Type)
  | call (t : θ) (o : Op)
  | ret (t : θ) (r : Res)
  deriving DecidableEq, Repr

/-- Where the call of a thread is. -/
inductive Status (Op Res : Type)
  | idle
  | called (o : Op)
  | answered (r : Res)

section Atomic

variable [DecidableEq θ]

/-- **The atomic object** that starts at `s₀`: its histories, with the state
and the calls they lead to. `S s o r s'` says that the operation `o` may
return `r` in the state `s` and leave the state `s'`. -/
inductive Atomic (S : σ → Op → Res → σ → Prop) (s₀ : σ) :
    List (Action θ Op Res) → σ → (θ → Status Op Res) → Prop
  | nil : Atomic S s₀ [] s₀ fun _ => .idle
  | call {w : List (Action θ Op Res)} {s : σ} {st : θ → Status Op Res} {t : θ} {o : Op} :
      Atomic S s₀ w s st → st t = .idle →
      Atomic S s₀ (w ++ [.call t o]) s (Function.update st t (.called o))
  | answer {w : List (Action θ Op Res)} {s s' : σ} {st : θ → Status Op Res} {t : θ} {o : Op}
      {r : Res} : Atomic S s₀ w s st → st t = .called o → S s o r s' →
      Atomic S s₀ w s' (Function.update st t (.answered r))
  | ret {w : List (Action θ Op Res)} {s : σ} {st : θ → Status Op Res} {t : θ} {r : Res} :
      Atomic S s₀ w s st → st t = .answered r →
      Atomic S s₀ (w ++ [.ret t r]) s (Function.update st t .idle)

end Atomic

/-- A history that the atomic object has, to the state `s`. -/
def Linearizable [DecidableEq θ] (S : σ → Op → Res → σ → Prop) (s₀ : σ)
    (w : List (Action θ Op Res)) (s : σ) : Prop :=
  ∃ st, Atomic S s₀ w s st

/-! ## Hindsight -/

/-- The call of a thread, with the answers it has seen. -/
inductive Watch (Op Res : Type)
  | idle
  | opened (o : Op) (seen : Res → Prop)
  | closed (r : Res)

namespace Watch

/-- What the call of the atomic object may be. -/
def Allows : Watch Op Res → Status Op Res → Prop
  | idle, .idle => True
  | opened o _, .called o' => o' = o
  | opened _ seen, .answered r => seen r
  | closed r, .answered r' => r' = r
  | _, _ => False

/-- The call of the atomic object that is answered as late as possible. -/
def late : Watch Op Res → Status Op Res
  | idle => .idle
  | opened o _ => .called o
  | closed r => .answered r

theorem allows_late (g : Watch Op Res) : g.Allows g.late := by
  cases g <;> simp [Allows, late]

/-- The object is in the state `s` now. -/
def note (S : σ → Op → Res → σ → Prop) (s : σ) : Watch Op Res → Watch Op Res
  | idle => idle
  | opened o seen => opened o fun r => seen r ∨ S s o r s
  | closed r => closed r

theorem eq_idle {st : Status Op Res} (h : (idle : Watch Op Res).Allows st) : st = .idle := by
  cases st with
  | idle => rfl
  | called o => exact h.elim
  | answered r => exact h.elim

theorem eq_answered {r : Res} {st : Status Op Res} (h : (closed r : Watch Op Res).Allows st) :
    st = .answered r := by
  cases st with
  | idle => exact h.elim
  | called o => exact h.elim
  | answered r' => exact congrArg _ h

theorem late_note (S : σ → Op → Res → σ → Prop) (s : σ) (g : Watch Op Res) :
    (g.note S s).late = g.late := by
  cases g <;> rfl

/-- The call has seen more, and with it the state `s`. -/
inductive Grows (S : σ → Op → Res → σ → Prop) (s : σ) : Watch Op Res → Watch Op Res → Prop
  | opened {o : Op} {seen seen' : Res → Prop} (hle : ∀ r, seen r → seen' r)
      (hnow : ∀ r, S s o r s → seen' r) : Grows S s (opened o seen) (opened o seen')
  | closed {r : Res} : Grows S s (closed r) (closed r)

theorem grows_note (S : σ → Op → Res → σ → Prop) (s : σ) {g : Watch Op Res} (h : g ≠ idle) :
    Grows S s g (g.note S s) := by
  cases g with
  | idle => exact absurd rfl h
  | opened o seen => exact .opened (fun _ => Or.inl) fun _ => Or.inr
  | closed r => exact .closed

/-- An answer that was not right before the change of the state. -/
theorem of_allows_note {S : σ → Op → Res → σ → Prop} {s : σ} {g : Watch Op Res}
    {st : Status Op Res} (h : (g.note S s).Allows st) (hnot : ¬ g.Allows st) :
    ∃ o r, g.late = .called o ∧ st = .answered r ∧ S s o r s := by
  cases g with
  | idle => exact absurd h hnot
  | closed r => exact absurd h hnot
  | opened o seen =>
    cases st with
    | idle => exact h.elim
    | called o' => exact absurd h hnot
    | answered r => exact ⟨o, r, rfl, rfl, h.resolve_left hnot⟩

end Watch

section Watched

variable [DecidableEq θ]

/-- **The watched object**: each change of the state is the answer to a
call, and all open calls see it. -/
inductive Watched (S : σ → Op → Res → σ → Prop) (s₀ : σ) :
    List (Action θ Op Res) → σ → (θ → Watch Op Res) → Prop
  | nil : Watched S s₀ [] s₀ fun _ => .idle
  | call {w : List (Action θ Op Res)} {s : σ} {g : θ → Watch Op Res} {t : θ} {o : Op} :
      Watched S s₀ w s g → g t = .idle →
      Watched S s₀ (w ++ [.call t o]) s (Function.update g t (.opened o fun r => S s o r s))
  | answer {w : List (Action θ Op Res)} {s s' : σ} {g : θ → Watch Op Res} {t : θ} {o : Op}
      {seen : Res → Prop} {r : Res} :
      Watched S s₀ w s g → g t = .opened o seen → S s o r s' →
      Watched S s₀ w s' (Function.update (fun t' => (g t').note S s') t (.closed r))
  | ret {w : List (Action θ Op Res)} {s : σ} {g : θ → Watch Op Res} {t : θ} {r : Res} :
      Watched S s₀ w s g → (g t).Allows (.answered r) →
      Watched S s₀ (w ++ [.ret t r]) s (Function.update g t .idle)

variable {S : σ → Op → Res → σ → Prop} {s₀ s : σ} {w : List (Action θ Op Res)}

/-- Finitely many calls are answered at one moment. -/
theorem Atomic.answers {st st' : θ → Status Op Res} (h : Atomic S s₀ w s st)
    (hfin : {t | st' t ≠ st t}.Finite)
    (hans : ∀ t, st' t = st t ∨ ∃ o r, st t = .called o ∧ st' t = .answered r ∧ S s o r s) :
    Atomic S s₀ w s st' := by
  obtain ⟨F, hF⟩ : ∃ F : Finset θ, ∀ t, t ∉ F → st' t = st t :=
    ⟨hfin.toFinset, fun t ht => by simpa using ht⟩
  clear hfin
  induction F using Finset.induction_on generalizing st' with
  | empty =>
    obtain rfl : st' = st := funext fun t => hF t (Finset.notMem_empty t)
    exact h
  | insert a F ha ih =>
    -- all but the thread `a` are answered first
    have hrest : Atomic S s₀ w s (Function.update st' a (st a)) := by
      refine ih (fun t => ?_) fun t ht => ?_
      · rcases eq_or_ne t a with rfl | hta
        · exact Or.inl (Function.update_self ..)
        · rw [Function.update_of_ne hta]
          exact hans t
      · rcases eq_or_ne t a with rfl | hta
        · exact Function.update_self ..
        · rw [Function.update_of_ne hta]
          exact hF t (by simp [hta, ht])
    rcases hans a with hsame | ⟨o, r, hcalled, hanswered, hspec⟩
    · rwa [← hsame, Function.update_eq_self] at hrest
    · have hnext := hrest.answer ((Function.update_self ..).trans hcalled) hspec
      rwa [Function.update_idem, ← hanswered, Function.update_eq_self] at hnext

/-- **Hindsight.** However finitely many of the open calls are answered
with what they have seen, the atomic object has a run to that. -/
theorem Watched.atomic {g : θ → Watch Op Res} (h : Watched S s₀ w s g) {st : θ → Status Op Res}
    (hst : ∀ t, (g t).Allows (st t)) (hfin : {t | st t ≠ (g t).late}.Finite) :
    Atomic S s₀ w s st := by
  induction h generalizing st with
  | nil =>
    obtain rfl : st = fun _ => .idle := funext fun t => Watch.eq_idle (hst t)
    exact .nil
  | @call w s g t o h hidle ih =>
    have hbefore : Atomic S s₀ w s (Function.update st t .idle) := by
      refine ih (fun t' => ?_) (hfin.subset fun t' ht' => ?_)
      · rcases eq_or_ne t' t with rfl | hne
        · rw [Function.update_self, hidle]
          trivial
        · rw [Function.update_of_ne hne]
          simpa [Function.update_of_ne hne] using hst t'
      · have hne : t' ≠ t := by
          rintro rfl
          exact ht' (by rw [Function.update_self, hidle, Watch.late])
        simpa [Function.update_of_ne hne] using ht'
    have hcalled := hbefore.call (o := o) (Function.update_self ..)
    rw [Function.update_idem] at hcalled
    have ht := hst t
    rw [Function.update_self] at ht
    rcases hs : st t with - | o' | r
    all_goals rw [hs] at ht
    · exact ht.elim
    · obtain rfl : o' = o := ht
      rwa [← hs, Function.update_eq_self] at hcalled
    · -- the call is answered at once
      have hanswered := hcalled.answer (Function.update_self ..) ht
      rwa [Function.update_idem, ← hs, Function.update_eq_self] at hanswered
  | @answer w s s' g t o seen r h hopen hspec ih =>
    classical
    have hself : st t = .answered r := by
      have ht := hst t
      rw [Function.update_self] at ht
      exact Watch.eq_answered ht
    have hother {t' : θ} (hne : t' ≠ t) : ((g t').note S s').Allows (st t') := by
      simpa [Function.update_of_ne hne] using hst t'
    -- before, the others are answered as far as they could have been
    let before : θ → Status Op Res := Function.update
      (fun t' => if (g t').Allows (st t') then st t' else (g t').late) t (.called o)
    have hbefore : Atomic S s₀ w s before := by
      refine ih (fun t' => ?_) (hfin.subset fun t' ht' => ?_)
      · rcases eq_or_ne t' t with rfl | hne
        · simp [before, hopen, Watch.Allows]
        · simp only [before, Function.update_of_ne hne]
          split_ifs with hallows
          · exact hallows
          · exact (g t').allows_late
      · have hne : t' ≠ t := by
          rintro rfl
          exact ht' (by simp [before, hopen, Watch.late])
        simp only [before, Function.update_of_ne hne, Set.mem_ofPred_eq] at ht' ⊢
        rw [Watch.late_note]
        split_ifs at ht' with hallows
        · exact ht'
        · exact absurd rfl ht'
    have hanswered := hbefore.answer (Function.update_self ..) hspec
    rw [Function.update_idem] at hanswered
    refine hanswered.answers (hfin.subset fun t' ht' => ?_) fun t' => ?_
    · have hne : t' ≠ t := by
        rintro rfl
        exact ht' (by rw [Function.update_self, hself])
      simp only [Function.update_of_ne hne, Set.mem_ofPred_eq] at ht' ⊢
      rw [Watch.late_note]
      split_ifs at ht' with hallows
      · exact absurd rfl ht'
      · exact ht'
    · rcases eq_or_ne t' t with rfl | hne
      · exact Or.inl (by rw [Function.update_self, hself])
      · rw [Function.update_of_ne hne]
        split_ifs with hallows
        · exact Or.inl rfl
        · exact Or.inr (Watch.of_allows_note (hother hne) hallows)
  | @ret w s g t r h hallows ih =>
    have hidle : st t = .idle := by
      have ht := hst t
      rw [Function.update_self] at ht
      exact Watch.eq_idle ht
    have hbefore : Atomic S s₀ w s (Function.update st t (.answered r)) := by
      refine ih (fun t' => ?_) ((hfin.insert t).subset fun t' ht' => ?_)
      · rcases eq_or_ne t' t with rfl | hne
        · rwa [Function.update_self]
        · rw [Function.update_of_ne hne]
          simpa [Function.update_of_ne hne] using hst t'
      · rcases eq_or_ne t' t with rfl | hne
        · exact Set.mem_insert _ _
        · refine Set.mem_insert_of_mem _ ?_
          simpa [Function.update_of_ne hne] using ht'
    have hret := hbefore.ret (Function.update_self ..)
    rwa [Function.update_idem, ← hidle, Function.update_eq_self] at hret

/-- **A watched history is linearizable**, to the state it is in. -/
theorem Watched.to_linearizable {g : θ → Watch Op Res} (h : Watched S s₀ w s g) :
    Linearizable S s₀ w s :=
  ⟨fun t => (g t).late, h.atomic (fun t => (g t).allows_late) (by simp)⟩

end Watched

end Linearization

end CppEtudes
