import CppEtudes.Shuffle.Model.LocalShuffleFabric
import Mathlib.Data.List.Basic
import Mathlib.Logic.Relation
import Mathlib.Tactic.Common

/-!
# No chunk is lost between a sinker and a source

Each cell is a channel of one place. What the source gets from it is, at
every point of every interleaving, a beginning of what the sinker has put
in; at most one chunk behind it is in the cell and at most one was deleted
when the source finished. A sinker that adds a chunk only after
`need_input` has returned true loses none: what it gives to `add_chunk` is
put into the cell, or deleted because the source has finished.

The plain store of `get_chunk` is safe since a cell whose input is finished
is changed by its source alone, and its `delete` is never reached.
-/

namespace CppEtudes

namespace Shuffle

variable {n m : ℕ}

/-! ## One cell -/

/-- **What holds at a cell**, with what has become of its chunks. -/
structure CellInv (s : ChunkState) (t : Trace) : Prop where
  order : t.added = t.delivered ++ t.deleted ++ s.chunk.toList
  undeleted : s.outputFinished = false → t.deleted = []
  once : t.deleted.length ≤ 1
  emptied : s.outputFinished = true → s.chunk = none
  submitted : t.submitted.Perm (t.added ++ t.rejected ++ t.lost)
  rejected : t.rejected ≠ [] → s.outputFinished = true ∨ s.inputFinished = true

section Cell

variable {s s' : ChunkState} {t : Trace} {k : Sinker m} {pc : SourcePc n}

theorem cellInv_empty : CellInv .empty .nil :=
  ⟨rfl, fun _ => rfl, Nat.zero_le _, fun _ => rfl, List.Perm.refl _, fun h => absurd rfl h⟩

/-- A chunk that comes to the end of one of the lists. -/
theorem perm_append_insert {l l₁ l₂ : List ℕ} (h : l.Perm (l₁ ++ l₂)) (x : ℕ) :
    (l ++ [x]).Perm (l₁ ++ [x] ++ l₂) := by
  have hx : (l ++ [x]).Perm (l₁ ++ l₂ ++ [x]) := h.append_right [x]
  refine hx.trans ?_
  rw [List.append_assoc, List.append_assoc]
  exact List.Perm.append_left l₁ List.perm_append_comm

/-- **An access of the sinker** keeps what holds at the cell. -/
theorem CellInv.sink (h : CellInv s t) (k : Sinker m) :
    CellInv (k.access s t).1 (k.access s t).2.1 := by
  rcases hpc : k.pc with - | o | ⟨o, chunk⟩ | o | ⟨o, old⟩
  all_goals simp only [Sinker.access, hpc]
  · exact h
  · exact h
  · split_ifs with hempty hbits
    · -- the source of an empty cell without bits has not finished
      subst hempty
      have hdel : t.deleted = [] := h.undeleted rfl
      refine ⟨?_, fun _ => hdel, h.once, fun hout => (nomatch hout), ?_, fun hrej => ?_⟩
      · have horder := h.order
        rw [hdel] at horder ⊢
        rw [horder]
        simp [ChunkState.empty]
      · rw [List.append_assoc (t.added ++ [chunk])]
        refine perm_append_insert ?_ chunk
        rw [← List.append_assoc]
        exact h.submitted
      · rcases h.rejected hrej with hbit | hbit
        · exact nomatch hbit
        · exact nomatch hbit
    · refine { h with submitted := ?_, rejected := fun _ => Bool.or_eq_true_iff.1 hbits }
      rw [← List.append_assoc t.added]
      exact perm_append_insert h.submitted chunk
    · refine { h with submitted := ?_ }
      have hx : (t.submitted ++ [chunk]).Perm (t.added ++ t.rejected ++ t.lost ++ [chunk]) :=
        h.submitted.append_right [chunk]
      rwa [List.append_assoc (t.added ++ t.rejected)] at hx
  · exact h
  · split_ifs with hold
    · subst hold
      exact ⟨h.order, h.undeleted, h.once, h.emptied, h.submitted, fun _ => Or.inr rfl⟩
    · exact h

theorem Sinker.access_outputFinished (k : Sinker m) (s : ChunkState) (t : Trace) :
    (k.access s t).1.outputFinished = s.outputFinished := by
  rcases hpc : k.pc with - | o | ⟨o, chunk⟩ | o | ⟨o, old⟩
  all_goals simp only [Sinker.access, hpc]
  · split_ifs with hempty
    · rw [hempty, ChunkState.empty]
    · rfl
    · rfl
  · split_ifs with hold
    · rw [hold]
    · rfl

/-- A sinker that has finished leaves the cell alone. -/
theorem Sinker.access_of_inputFinished (k : Sinker m) (t : Trace) (hin : s.inputFinished = true) :
    (k.access s t).1 = s := by
  rcases hpc : k.pc with - | o | ⟨o, chunk⟩ | o | ⟨o, old⟩
  all_goals simp only [Sinker.access, hpc]
  · split_ifs with hempty
    · rw [hempty] at hin
      exact nomatch hin
    · rfl
    · rfl
  · split_ifs with hold
    · subst hold
      rw [← hin]
    · rfl

/-- What a source knows of the cell of its next access. -/
def SourcePc.Knows (s : ChunkState) : SourcePc n → Prop
  | .clear _ _ => False
  | .store _ state => s = state ∧ state.inputFinished = true ∧ state.outputFinished = false
  | .take _ _ => s.outputFinished = false
  | _ => True

theorem SourcePc.Knows.sink (h : pc.Knows s) (k : Sinker m) (t : Trace) :
    pc.Knows (k.access s t).1 := by
  rcases pc with - | i | ⟨i, st⟩ | ⟨i, st⟩ | ⟨i, st⟩ | i | ⟨i, st⟩
  case clear => exact h.elim
  case store =>
    obtain ⟨rfl, hin, hout⟩ := h
    exact ⟨k.access_of_inputFinished t hin, hin, hout⟩
  case take => exact (k.access_outputFinished s t).trans h
  all_goals trivial

/-- The chunk leaves the cell for the source. -/
theorem CellInv.deliver (h : CellInv s t) (hout : s.outputFinished = false) :
    CellInv ⟨none, false, s.inputFinished⟩
      { t with delivered := t.delivered ++ s.chunk.toList } := by
  have hdel := h.undeleted hout
  have hrejected := h.rejected
  rw [hout] at hrejected
  refine ⟨?_, fun _ => hdel, h.once, fun _ => rfl, h.submitted, hrejected⟩
  have horder := h.order
  rw [hdel] at horder ⊢
  rw [horder]
  simp

/-- The source finishes. -/
theorem CellInv.finish (h : CellInv s t) (inp : Bool) :
    CellInv ⟨none, true, inp⟩ { t with deleted := t.deleted ++ s.chunk.toList } := by
  refine ⟨?_, fun hout => (nomatch hout), ?_, fun _ => rfl, h.submitted, fun _ => Or.inl rfl⟩
  · rw [h.order]
    simp
  · -- a second `set_output_finished` finds no chunk
    rcases hout : s.outputFinished with - | -
    · rw [h.undeleted hout]
      rcases s.chunk with - | x <;> simp
    · rw [h.emptied hout]
      simpa using h.once

/-- **An access of the source** keeps what holds at the cell. -/
theorem CellInv.source (h : CellInv s t) (hk : pc.Knows s) :
    CellInv (pc.access s t).1 (pc.access s t).2.1 := by
  rcases pc with - | i | ⟨i, st⟩ | ⟨i, st⟩ | ⟨i, st⟩ | i | ⟨i, st⟩
  all_goals simp only [SourcePc.access]
  · exact h
  · split_ifs <;> exact h
  · exact hk.elim
  · obtain ⟨rfl, hin, hout⟩ := hk
    rw [← hin]
    exact h.deliver hout
  · split_ifs with hold
    · subst hold
      have hout : s.outputFinished = false := hk
      rw [hout]
      exact h.deliver hout
    · exact h
  · exact h
  · split_ifs with hold
    · subst hold
      exact h.finish s.inputFinished
    · exact h

/-- A source puts no chunk into a cell. -/
theorem SourcePc.access_chunk (pc : SourcePc n) (t : Trace) (hs : s.chunk = none) :
    (pc.access s t).1.chunk = none := by
  rcases pc with - | i | ⟨i, st⟩ | ⟨i, st⟩ | ⟨i, st⟩ | i | ⟨i, st⟩
  all_goals simp only [SourcePc.access]
  · exact hs
  · split_ifs <;> exact hs
  · split_ifs
    · rfl
    · exact hs
  · exact hs
  · split_ifs
    · rfl
    · exact hs

/-- What a source knows after its access, of the cell of the next one. -/
theorem SourcePc.knows_access (h : CellInv s t) (hk : pc.Knows s) {i i' : Fin n} {x : ChunkState}
    (hi : pc.sinker? = some i) (hi' : (pc.access s t).2.2.sinker? = some i')
    (hx : i' = i → x = (pc.access s t).1) : (pc.access s t).2.2.Knows x := by
  have hloop (j : Option (Fin n)) : (SourcePc.loop j).Knows x := by
    rcases j with - | j <;> trivial
  rcases pc with - | j | ⟨j, st⟩ | ⟨j, st⟩ | ⟨j, st⟩ | j | ⟨j, st⟩
  all_goals simp only [SourcePc.access] at hi' hx ⊢
  · trivial
  · obtain rfl := Option.some.inj hi
    split_ifs at hi' hx ⊢ with hout hchunk hin hnone
    · -- a cell whose output is finished is empty: no `delete` here
      rw [h.emptied hout] at hchunk
      exact nomatch hchunk
    · trivial
    · exact ⟨hx (Option.some.inj hi').symm, hin, Bool.eq_false_iff.2 hout⟩
    · trivial
    · rw [hx (Option.some.inj hi').symm]
      exact Bool.eq_false_iff.2 hout
  · exact hk.elim
  · trivial
  · obtain rfl := Option.some.inj hi
    split_ifs at hi' hx ⊢ with hold
    · trivial
    · rw [hx (Option.some.inj hi').symm]
      exact hk
  · trivial
  · split_ifs
    · exact hloop _
    · trivial

end Cell

/-! ## A row of cells -/

/-- What a sinker knows of its cells. -/
structure Sinker.Knows (k : Sinker m) (look : Fin m → ChunkState) : Prop where
  granted : ∀ o, k.granted o = true → (look o).chunk = none
  needed : ∀ o, k.pc = .need o → ∀ o' < o, (look o').chunk = none

section Row

variable {k : Sinker m} {look look' : Fin m → ChunkState} {o : Fin m} {t : Trace}

theorem lt_or_eq_of_lt_next {o' x : Fin m} (h : next o = some o') (hx : x < o') :
    x < o ∨ x = o := by
  unfold next at h
  split_ifs at h
  obtain rfl := Option.some.inj h
  have hlt : (x : ℕ) < o + 1 := hx
  rcases Nat.lt_succ_iff_lt_or_eq.1 hlt with hlt | heq
  · exact Or.inl hlt
  · exact Or.inr (Fin.ext heq)

theorem lt_or_eq_of_next_eq_none (h : next o = none) (x : Fin m) : x < o ∨ x = o := by
  unfold next at h
  split_ifs at h with hlast
  rcases Nat.lt_or_ge (x : ℕ) o with hlt | hge
  · exact Or.inl hlt
  · exact Or.inr (Fin.ext (by omega))

theorem Sinker.Knows.mono (h : k.Knows look)
    (hlook : ∀ x, (look x).chunk = none → (look' x).chunk = none) : k.Knows look' :=
  ⟨fun x hx => hlook x (h.granted x hx), fun x hx y hy => hlook y (h.needed x hx y hy)⟩

/-- The sinker goes on to something else than `need_input`. -/
theorem Sinker.Knows.goto (h : k.Knows look) {pc : SinkPc m} (hpc : ∀ o, pc ≠ .need o) :
    (k.goto pc).Knows look :=
  ⟨h.granted, fun x hx => absurd hx (hpc x)⟩

theorem Sinker.Knows.finishLoop (h : k.Knows look) (j : Option (Fin m)) :
    (k.finishLoop j).Knows look := by
  rcases j with - | j
  · exact h.goto fun _ hpc => nomatch hpc
  · exact h.goto fun _ hpc => nomatch hpc

/-- `need_input` begins. -/
theorem Sinker.Knows.needLoop_first (h : k.Knows look) : (k.needLoop (first m)).Knows look := by
  unfold first
  split_ifs with hm
  · refine ⟨h.granted, fun x hx y hy => ?_⟩
    obtain rfl := SinkPc.need.inj hx
    exact absurd hy (Nat.not_lt_zero _)
  · exact ⟨fun x => absurd x.pos hm, fun x => absurd x.pos hm⟩

/-- `need_input` goes on behind a cell without a chunk, or returns true. -/
theorem Sinker.Knows.needLoop_next (h : k.Knows look) (hpc : k.pc = .need o)
    (ho : (look o).chunk = none) : (k.needLoop (next o)).Knows look := by
  have hall {x : Fin m} (hx : x < o ∨ x = o) : (look x).chunk = none := by
    rcases hx with hx | rfl
    · exact h.needed o hpc x hx
    · exact ho
  rcases hnext : next o with - | o'
  · exact ⟨fun x _ => hall (lt_or_eq_of_next_eq_none hnext x), fun x hx => nomatch hx⟩
  · refine ⟨h.granted, fun x hx y hy => ?_⟩
    obtain rfl := SinkPc.need.inj hx
    exact hall (lt_or_eq_of_lt_next hnext hy)

theorem Sinker.Knows.added (h : k.Knows look) (hlook : ∀ x ≠ o, look' x = look x) :
    (k.added o).Knows look' := by
  refine ⟨fun x hx => ?_, fun x hx => nomatch hx⟩
  change Function.update k.granted o false x = true at hx
  rcases eq_or_ne x o with rfl | hne
  · rw [Function.update_self] at hx
    exact nomatch hx
  · rw [Function.update_of_ne hne] at hx
    rw [hlook x hne]
    exact h.granted x hx

/-- **What a sinker knows after its access.** -/
theorem Sinker.Knows.access (h : k.Knows look) (ho : k.source? = some o)
    (hself : look' o = (k.access (look o) t).1) (hother : ∀ x ≠ o, look' x = look x) :
    (k.access (look o) t).2.2.Knows look' := by
  -- the chunks stay where they are, unless one is added
  have hsame (hchunk : (look' o).chunk = (look o).chunk) : k.Knows look' := by
    refine h.mono fun x hx => ?_
    rcases eq_or_ne x o with rfl | hne
    · exact hchunk.trans hx
    · rw [hother x hne]
      exact hx
  rw [Sinker.source?] at ho
  rcases hpc : k.pc with - | o' | ⟨o', chunk⟩ | o' | ⟨o', old⟩
  all_goals
    rw [hpc] at ho
    simp only [Sinker.access, hpc] at hself ⊢
  · exact nomatch ho
  · obtain rfl := Option.some.inj ho
    have hk := hsame (by rw [hself])
    split_ifs with hneed
    · refine hk.needLoop_next hpc ?_
      rw [hself]
      simp only [ChunkState.needInput, Bool.and_eq_true, Option.isNone_iff_eq_none] at hneed
      exact hneed.2
    · exact hk.goto fun _ hpc => nomatch hpc
  · obtain rfl := Option.some.inj ho
    split_ifs <;> exact h.added hother
  · obtain rfl := Option.some.inj ho
    exact (hsame (by rw [hself])).goto fun _ hpc => nomatch hpc
  · obtain rfl := Option.some.inj ho
    split_ifs at hself ⊢ with hold
    · exact (hsame (by rw [hself, hold])).finishLoop _
    · exact (hsame (by rw [hself])).goto fun _ hpc => nomatch hpc

/-- The sinker adds only after `need_input` has returned true. -/
def Sinker.MayAdd (k : Sinker m) (o : Fin m) : Prop := k.granted o = true

theorem Sinker.needLoop_pc_ne_add {j : Option (Fin m)} {o : Fin m} {chunk : ℕ} :
    (k.needLoop j).pc ≠ .add o chunk := by
  rcases j with - | j <;> exact fun hadd => nomatch hadd

theorem Sinker.finishLoop_pc_ne_add {j : Option (Fin m)} {o : Fin m} {chunk : ℕ} :
    (k.finishLoop j).pc ≠ .add o chunk := by
  rcases j with - | j <;> exact fun hadd => nomatch hadd

theorem Sinker.access_pc_ne_add {s : ChunkState} {o' : Fin m} {chunk : ℕ}
    (ho : k.source? = some o) : (k.access s t).2.2.pc ≠ .add o' chunk := by
  rw [Sinker.source?] at ho
  rcases hpc : k.pc with - | x | ⟨x, chunk'⟩ | x | ⟨x, old⟩
  all_goals
    rw [hpc] at ho
    simp only [Sinker.access, hpc]
  · exact nomatch ho
  · split_ifs
    · exact Sinker.needLoop_pc_ne_add
    · exact fun hadd => nomatch hadd
  · split_ifs <;> exact fun hadd => nomatch hadd
  · exact fun hadd => nomatch hadd
  · split_ifs
    · exact Sinker.finishLoop_pc_ne_add
    · exact fun hadd => nomatch hadd

/-- A chunk that comes to a cell without one is not lost. -/
theorem Sinker.access_lost {s : ChunkState}
    (hs : ∀ o chunk, k.pc = .add o chunk → s.chunk = none) :
    (k.access s t).2.1.lost = t.lost := by
  rcases hpc : k.pc with - | x | ⟨x, chunk⟩ | x | ⟨x, old⟩
  all_goals simp only [Sinker.access, hpc]
  · split_ifs with hempty hbits
    · rfl
    · rfl
    · refine absurd ?_ hempty
      rw [Bool.or_eq_true, not_or, Bool.not_eq_true, Bool.not_eq_true] at hbits
      rcases s with ⟨c, out, inp⟩
      obtain rfl : c = none := hs x chunk hpc
      obtain ⟨rfl, rfl⟩ : out = false ∧ inp = false := hbits
      rfl
  · split_ifs <;> rfl

theorem SourcePc.access_lost (pc : SourcePc n) (s : ChunkState) (t : Trace) :
    (pc.access s t).2.1.lost = t.lost := by
  rcases pc with - | i | ⟨i, st⟩ | ⟨i, st⟩ | ⟨i, st⟩ | i | ⟨i, st⟩
  all_goals simp only [SourcePc.access]
  all_goals split_ifs <;> rfl

end Row

/-! ## The fabric -/

namespace Config

variable {c c' : Config n m} {rule : Sinker m → Fin m → Prop}

/-- Each pair of a sinker and a source has a cell of its own. -/
theorem idx_inj {i i' : Fin n} {o o' : Fin m} (h : idx i o = idx i' o') : i = i' ∧ o = o' := by
  unfold idx at h
  have hmod : (o : ℕ) = o' :=
    calc (o : ℕ) = (i * m + o) % m := (Nat.mul_add_mod_of_lt o.isLt).symm
      _ = (i' * m + o') % m := by rw [h]
      _ = o' := Nat.mul_add_mod_of_lt o'.isLt
  rw [hmod] at h
  have hi : (i : ℕ) = i' := Nat.eq_of_mul_eq_mul_right o.pos (Nat.add_right_cancel h)
  exact ⟨Fin.ext hi, Fin.ext hmod⟩

theorem update_idx_of_ne {f : ℕ → ChunkState} {i i' : Fin n} {o o' : Fin m} {s : ChunkState}
    (h : (i', o') ≠ (i, o)) : Function.update f (idx i o) s (idx i' o') = f (idx i' o') := by
  refine Function.update_of_ne (fun heq => h ?_) _ _
  obtain ⟨rfl, rfl⟩ := idx_inj heq
  rfl

/-- **The invariant of the threads.** -/
structure Inv (c : Config n m) : Prop where
  cell : ∀ i o, CellInv (c.cell i o) (c.trace (i, o))
  source : ∀ i o, (c.source o).sinker? = some i → (c.source o).Knows (c.cell i o)
  sink : ∀ i, (c.sink i).Knows fun o => c.cell i o

theorem inv_new : Inv (new : Config n m) :=
  ⟨fun _ _ => cellInv_empty, fun _ _ h => (nomatch h),
    fun _ => ⟨fun _ h => (nomatch h), fun _ h => (nomatch h)⟩⟩

/-- A sinker calls. -/
theorem Inv.callSink (h : Inv c) {i : Fin n} {k : Sinker m} (hk : k.Knows fun o => c.cell i o) :
    Inv { c with sink := Function.update c.sink i k } := by
  refine ⟨h.cell, h.source, fun i' => ?_⟩
  dsimp only
  rcases eq_or_ne i' i with rfl | hne
  · rw [Function.update_self]
    exact hk
  · rw [Function.update_of_ne hne]
    exact h.sink i'

/-- A source calls. -/
theorem Inv.callSource (h : Inv c) {o : Fin m} {pc : SourcePc n} (hpc : ∀ s, pc.Knows s) :
    Inv { c with source := Function.update c.source o pc } := by
  refine ⟨h.cell, fun i o' ho' => ?_, h.sink⟩
  dsimp only at ho' ⊢
  rcases eq_or_ne o' o with rfl | hne
  · rw [Function.update_self]
    exact hpc _
  · rw [Function.update_of_ne hne] at ho' ⊢
    exact h.source i o' ho'

/-- **An access of a sinker.** -/
theorem Inv.runSink (h : Inv c) {i : Fin n} (hrun : c.runSink i = some c') : Inv c' := by
  obtain ⟨o, ho, rfl⟩ := Option.map_eq_some_iff.1 hrun
  refine ⟨fun i' o' => ?_, fun i' o' ho' => ?_, fun i' => ?_⟩
  all_goals simp only [Config.cell]
  · rcases eq_or_ne (i', o') (i, o) with heq | hne
    · obtain ⟨rfl, rfl⟩ := Prod.mk.inj heq
      rw [Function.update_self, Function.update_self]
      exact (h.cell i' o').sink (c.sink i')
    · rw [update_idx_of_ne hne, Function.update_of_ne hne]
      exact h.cell i' o'
  · have hknows := h.source i' o' ho'
    rcases eq_or_ne (i', o') (i, o) with heq | hne
    · obtain ⟨rfl, rfl⟩ := Prod.mk.inj heq
      rw [Function.update_self]
      exact hknows.sink (c.sink i') (c.trace (i', o'))
    · rw [update_idx_of_ne hne]
      exact hknows
  · -- the cells of another sinker are not touched
    rcases eq_or_ne i' i with rfl | hne
    · rw [Function.update_self]
      refine (h.sink i').access ho (Function.update_self ..) fun x hx => ?_
      exact update_idx_of_ne fun heq => hx (Prod.mk.inj heq).2
    · rw [Function.update_of_ne hne]
      refine (h.sink i').mono fun x hx => ?_
      rwa [update_idx_of_ne fun heq => hne (Prod.mk.inj heq).1]

/-- **An access of a source.** -/
theorem Inv.runSource (h : Inv c) {o : Fin m} (hrun : c.runSource o = some c') : Inv c' := by
  obtain ⟨i, hi, rfl⟩ := Option.map_eq_some_iff.1 hrun
  have hknows := h.source i o hi
  refine ⟨fun i' o' => ?_, fun i' o' ho' => ?_, fun i' => ?_⟩
  all_goals simp only [Config.cell]
  · rcases eq_or_ne (i', o') (i, o) with heq | hne
    · obtain ⟨rfl, rfl⟩ := Prod.mk.inj heq
      rw [Function.update_self, Function.update_self]
      exact (h.cell i' o').source hknows
    · rw [update_idx_of_ne hne, Function.update_of_ne hne]
      exact h.cell i' o'
  · rcases eq_or_ne o' o with rfl | hne
    · simp only [Function.update_self] at ho' ⊢
      refine SourcePc.knows_access (h.cell i o') hknows hi ho' fun heq => ?_
      rw [heq, Function.update_self]
      rfl
    · simp only [Function.update_of_ne hne] at ho' ⊢
      rw [update_idx_of_ne fun heq => hne (Prod.mk.inj heq).2]
      exact h.source i' o' ho'
  · refine (h.sink i').mono fun x hx => ?_
    rcases eq_or_ne (i', x) (i, o) with heq | hne
    · obtain ⟨rfl, rfl⟩ := Prod.mk.inj heq
      rw [Function.update_self]
      exact (c.source x).access_chunk _ hx
    · rwa [update_idx_of_ne hne]

/-- **Every step keeps the invariant.** -/
theorem Inv.step (h : Inv c) (hstep : Step rule c c') : Inv c' := by
  cases hstep with
  | needInput i _ => exact h.callSink (h.sink i).needLoop_first
  | addChunk i o chunk _ _ => exact h.callSink ((h.sink i).goto fun _ hpc => nomatch hpc)
  | setInputFinished i _ => exact h.callSink ((h.sink i).finishLoop _)
  | getChunk i o _ => exact h.callSource fun _ => trivial
  | setOutputFinished o _ =>
    refine h.callSource fun s => ?_
    rcases first n with - | i <;> trivial
  | sink hrun => exact h.runSink hrun
  | source hrun => exact h.runSource hrun

theorem inv_of_steps (hrun : Relation.ReflTransGen (Step rule) new c) : Inv c := by
  induction hrun with
  | refl => exact inv_new
  | tail _ hstep ih => exact ih.step hstep

/-- **A channel keeps the order.** In any interleaving, and whatever the
sinkers add, the chunks put into a cell are those that its source has got,
in this order, then at most one that was deleted when the source finished,
then the one in the cell; each other chunk given to `add_chunk` was deleted
by it or is lost. While the source has not finished, it has got all of them
if the cell is empty. -/
theorem chunks_in_order (hrun : Relation.ReflTransGen (Step rule) new c) (i : Fin n) (o : Fin m) :
    (c.trace (i, o)).added = (c.trace (i, o)).delivered ++ (c.trace (i, o)).deleted ++
        (c.cell i o).chunk.toList ∧
      (c.trace (i, o)).deleted.length ≤ 1 ∧
      (c.trace (i, o)).submitted.Perm
        ((c.trace (i, o)).added ++ (c.trace (i, o)).rejected ++ (c.trace (i, o)).lost) ∧
      ((c.cell i o).outputFinished = false → (c.cell i o).chunk = none →
        (c.trace (i, o)).delivered = (c.trace (i, o)).added) := by
  have h := (inv_of_steps hrun).cell i o
  refine ⟨h.order, h.once, h.submitted, fun hout hchunk => ?_⟩
  rw [h.order, h.undeleted hout, hchunk]
  simp

/-- A sinker that does not ask loses its second chunk, and the first one is
deleted when the source finishes. -/
theorem chunks_in_order_twice : ∃ c : Config 1 1,
    (c.trace (0, 0)).lost = [8] ∧ (c.trace (0, 0)).added = [] ++ [7] ++ (c.cell 0 0).chunk.toList ∧
      (c.trace (0, 0)).submitted.Perm ([7] ++ [] ++ [8]) := by
  have hadd : Relation.ReflTransGen (Step (n := 1) (m := 1) fun _ _ => True) new _ :=
    ((Relation.ReflTransGen.refl.tail (.addChunk 0 0 7 rfl trivial)).tail (.sink (i := 0) rfl))
  have hagain := (hadd.tail (.addChunk 0 0 8 rfl trivial)).tail (.sink (i := 0) rfl)
  have hfinish := ((hagain.tail (.setOutputFinished 0 rfl)).tail (.source (o := 0) rfl)).tail
    (.source (o := 0) rfl)
  obtain ⟨horder, -, hsubmitted, -⟩ := chunks_in_order hfinish 0 0
  exact ⟨_, rfl, horder, hsubmitted⟩

/-- What holds beside the invariant where sinkers ask before they add. -/
structure Careful (c : Config n m) : Prop where
  asked : ∀ i o chunk, (c.sink i).pc = .add o chunk → (c.sink i).granted o = true
  lost : ∀ i o, (c.trace (i, o)).lost = []

theorem Careful.callSink (h : Careful c) {i : Fin n} {k : Sinker m}
    (hk : ∀ o chunk, k.pc = .add o chunk → k.granted o = true) :
    Careful { c with sink := Function.update c.sink i k } := by
  refine ⟨fun i' => ?_, h.lost⟩
  dsimp only
  rcases eq_or_ne i' i with rfl | hne
  · rw [Function.update_self]
    exact hk
  · rw [Function.update_of_ne hne]
    exact h.asked i'

theorem Careful.runSink (h : Careful c) (hinv : Inv c) {i : Fin n}
    (hrun : c.runSink i = some c') : Careful c' := by
  obtain ⟨o, ho, rfl⟩ := Option.map_eq_some_iff.1 hrun
  refine ⟨fun i' o' chunk hadd => ?_, fun i' o' => ?_⟩
  · dsimp only at hadd ⊢
    rcases eq_or_ne i' i with rfl | hne
    · rw [Function.update_self] at hadd
      exact absurd hadd (Sinker.access_pc_ne_add ho)
    · rw [Function.update_of_ne hne] at hadd ⊢
      exact h.asked i' o' chunk hadd
  · dsimp only
    rcases eq_or_ne (i', o') (i, o) with heq | hne
    · obtain ⟨rfl, rfl⟩ := Prod.mk.inj heq
      rw [Function.update_self]
      -- the cell has stayed empty since `need_input` has seen it
      refine (Sinker.access_lost fun x chunk hadd => ?_).trans (h.lost i' o')
      obtain rfl : x = o' := by
        rw [Sinker.source?, hadd] at ho
        exact Option.some.inj ho
      exact (hinv.sink i').granted x (h.asked i' x chunk hadd)
    · rw [Function.update_of_ne hne]
      exact h.lost i' o'

theorem Careful.runSource (h : Careful c) {o : Fin m} (hrun : c.runSource o = some c') :
    Careful c' := by
  obtain ⟨i, hi, rfl⟩ := Option.map_eq_some_iff.1 hrun
  refine ⟨h.asked, fun i' o' => ?_⟩
  dsimp only
  rcases eq_or_ne (i', o') (i, o) with heq | hne
  · obtain ⟨rfl, rfl⟩ := Prod.mk.inj heq
    rw [Function.update_self]
    exact (SourcePc.access_lost _ _ _).trans (h.lost i' o')
  · rw [Function.update_of_ne hne]
    exact h.lost i' o'

theorem Careful.step (h : Careful c) (hinv : Inv c) (hstep : Step Sinker.MayAdd c c') :
    Careful c' := by
  cases hstep with
  | needInput i _ =>
    exact h.callSink fun o chunk hadd => absurd hadd Sinker.needLoop_pc_ne_add
  | addChunk i o chunk _ hrule =>
    refine h.callSink fun o' chunk' hadd => ?_
    obtain ⟨rfl, -⟩ := SinkPc.add.inj hadd
    exact hrule
  | setInputFinished i _ =>
    exact h.callSink fun o chunk hadd => absurd hadd Sinker.finishLoop_pc_ne_add
  | getChunk i o _ => exact ⟨h.asked, h.lost⟩
  | setOutputFinished o _ => exact ⟨h.asked, h.lost⟩
  | sink hrun => exact h.runSink hinv hrun
  | source hrun => exact h.runSource hrun

/-- **A sinker that asks first loses nothing.** If every sinker adds a chunk
only after `need_input` has returned true, each chunk given to `add_chunk`
was got by the source, was deleted when the source finished, is in the cell,
or was deleted by `add_chunk`; the last happens only when the source or the
sinker has finished. -/
theorem no_chunk_lost (hrun : Relation.ReflTransGen (Step Sinker.MayAdd) new c) (i : Fin n)
    (o : Fin m) :
    (c.trace (i, o)).submitted.Perm ((c.trace (i, o)).delivered ++ (c.trace (i, o)).deleted ++
        (c.cell i o).chunk.toList ++ (c.trace (i, o)).rejected) ∧
      ((c.trace (i, o)).rejected ≠ [] →
        (c.cell i o).outputFinished = true ∨ (c.cell i o).inputFinished = true) := by
  have hcareful : Careful c := by
    induction hrun with
    | refl => exact ⟨fun _ _ _ hadd => (nomatch hadd), fun _ _ => rfl⟩
    | tail hrun hstep ih => exact ih.step (inv_of_steps hrun) hstep
  have h := (inv_of_steps hrun).cell i o
  refine ⟨?_, h.rejected⟩
  have hsubmitted := h.submitted
  rwa [hcareful.lost i o, List.append_nil, h.order] at hsubmitted

/-- A sinker asks and adds, and the source gets the chunk. -/
theorem no_chunk_lost_seven : ∃ c : Config 1 1, (c.trace (0, 0)).delivered = [7] ∧
    (c.trace (0, 0)).submitted.Perm ([7] ++ [] ++ (c.cell 0 0).chunk.toList ++ []) := by
  have hask : Relation.ReflTransGen (Step (n := 1) (m := 1) Sinker.MayAdd) new _ :=
    (Relation.ReflTransGen.refl.tail (.needInput 0 rfl)).tail (.sink (i := 0) rfl)
  have hadd := (hask.tail (.addChunk 0 0 7 rfl rfl)).tail (.sink (i := 0) rfl)
  have hget := ((hadd.tail (.getChunk 0 0 rfl)).tail (.source (o := 0) rfl)).tail
    (.source (o := 0) rfl)
  exact ⟨_, rfl, (no_chunk_lost hget 0 0).1⟩

end Config

end Shuffle

end CppEtudes
