import CppEtudes.Common.Linearization
import CppEtudes.Concurrent.Interleaving

/-!
# The lock-free list is a map

Under any interleaving `Insert`, `Remove` and `Search` return what a map
returns that answers each call at one moment between its start and its
end. A successful `Insert` is answered at its linking swap and a
successful `Remove` at its marking swap. The other calls change nothing,
and the moment of their answer shows only later: where a `find` read a
null pointer behind a smaller key, where the link of the node it looks
for had no mark, or where another thread has set that mark.

A call may start at any linked node that is not marked, as those of the
hash table do, and not only at the head.
-/

namespace CppEtudes

namespace Concurrent

open Links Linearization

variable {τ θ : Type}

/-! ## The map -/

inductive MapOp
  | insert (key value : ℕ)
  | remove (key : ℕ)
  | search (key : ℕ)
  deriving DecidableEq, Repr

def MapOp.key : MapOp → ℕ
  | .insert key _ => key
  | .remove key => key
  | .search key => key

/-- **What the list is for**: what an operation returns in the state `s`
of a map, and the state it leaves. -/
def MapSpec (s : ℕ → Option ℕ) : MapOp → Result → (ℕ → Option ℕ) → Prop
  | .insert k v, r, s' => r.ok = (s k).isNone ∧ s' = Function.update s k (some ((s k).getD v))
  | .remove k, r, s' => r.ok = (s k).isSome ∧ s' = Function.update s k none
  | .search k, r, s' => r.ok = (s k).isSome ∧ (r.ok = true → r.value = s k) ∧ s' = s

section Map

variable {s s' : ℕ → Option ℕ} {o : MapOp} {r : Result}

/-- An answer that changes nothing depends on the key alone. -/
theorem MapSpec.congr (h : MapSpec s o r s) (hk : s o.key = s' o.key) : MapSpec s' o r s' := by
  rcases o with ⟨k, v⟩ | k | k
  all_goals simp only [MapSpec, MapOp.key, Function.eq_update_self_iff] at h hk ⊢
  all_goals rwa [← hk]

/-- The call has seen `x` at its key. -/
def Saw (o : MapOp) (seen : Result → Prop) (x : Option ℕ) : Prop :=
  ∀ s r, s o.key = x → MapSpec s o r s → seen r

theorem saw_of_forall {seen : Result → Prop} (h : ∀ r, MapSpec s o r s → seen r) :
    Saw o seen (s o.key) :=
  fun _ r hk hr => h r (hr.congr hk)

theorem Saw.mono {seen seen' : Result → Prop} {x : Option ℕ} (h : Saw o seen x)
    (hle : ∀ r, seen r → seen' r) : Saw o seen' x :=
  fun s r hk hr => hle r (h s r hk hr)

end Map

/-! ## The contents of the list -/

/-- The linked nodes without a mark. -/
def Represents (m : Memory τ) (log : List Event) (s : ℕ → Option ℕ) : Prop :=
  ∀ k v, s k = some v ↔ ∃ a, Linked log a ∧ m.marked a = false ∧ m.key a = k ∧ m.value a = v

section Represents

variable {m m' : Memory τ} {log : List Event} {nodes : List ℕ} {s : ℕ → Option ℕ} {a n k : ℕ}
  {p : Option ℕ}

/-- A write that leaves the mark of its word as it is. -/
theorem Memory.marked_write {w : Word τ} (h : w.mark = (m.word p).mark) :
    (m.write p w).marked a = m.marked a := by
  rcases eq_or_ne (some a) p with rfl | hap
  · rw [marked, word_write_self, h, marked]
  · rw [marked, word_write_of_ne hap, marked]

theorem represents_new [Zero τ] : Represents (Memory.new : Memory τ) [] fun _ => none := by
  intro k v
  simp [Linked]

namespace Represents

theorem eq_some (h : Represents m log s) (ha : Linked log a) (hm : m.marked a = false) :
    s (m.key a) = some (m.value a) := (h _ _).2 ⟨a, ha, hm, rfl, rfl⟩

theorem eq_none (h : Represents m log s)
    (hk : ∀ a, Linked log a → m.marked a = false → m.key a ≠ k) : s k = none := by
  refine Option.eq_none_iff_forall_ne_some.2 fun v hv => ?_
  obtain ⟨a, ha, hm, hak, -⟩ := (h k v).1 hv
  exact hk a ha hm hak

/-- What is linked keeps its mark, its key and its value. -/
theorem congr (h : Represents m log s) (hmark : ∀ a, Linked log a → m'.marked a = m.marked a)
    (hkey : ∀ a, Linked log a → m'.key a = m.key a)
    (hvalue : ∀ a, Linked log a → m'.value a = m.value a) : Represents m' log s := by
  intro k v
  rw [h k v]
  refine exists_congr fun a => and_congr_right fun ha => ?_
  rw [hmark a ha, hkey a ha, hvalue a ha]

/-- A node is linked whose key was not there. -/
theorem link (h : Represents m log s) {q : Option ℕ} {t t' : τ}
    (hword : m.word p = ⟨q, false, t⟩) (hkey : m.key n = k) (hmark : m.marked n = false)
    (hnone : s k = none) :
    Represents (m.write p ⟨some n, false, t'⟩) (log ++ [⟨.inserted, n, k⟩])
      (Function.update s k (some (m.value n))) := by
  have hmarks (a : ℕ) : (m.write p ⟨some n, false, t'⟩).marked a = m.marked a :=
    Memory.marked_write (by rw [hword])
  intro k' v
  rcases eq_or_ne k' k with rfl | hne
  · rw [Function.update_self]
    constructor
    · rintro hv
      refine ⟨n, linked_append_inserted.2 (Or.inr rfl), (hmarks n).trans hmark, hkey, ?_⟩
      exact Option.some.inj hv
    · rintro ⟨a, ha, ham, hak, hav⟩
      rw [hmarks] at ham
      rcases linked_append_inserted.1 ha with ha | rfl
      · exact absurd (hnone.symm.trans ((h k' v).2 ⟨a, ha, ham, hak, hav⟩)) (by simp)
      · exact congrArg some hav
  · rw [Function.update_of_ne hne, h k' v]
    refine exists_congr fun a => ?_
    rw [hmarks, linked_append_inserted]
    refine and_congr_left fun hrest => ?_
    refine (or_iff_left ?_).symm
    rintro rfl
    exact hne (hrest.2.1.symm.trans hkey)

/-- A node is marked. -/
theorem mark (h : Represents m log s) (hshared : Shared m log nodes) {q : Option ℕ} {t' : τ}
    (ha : Linked log a) (hm : m.marked a = false) (hkey : m.key a = k) :
    Represents (m.write (some a) ⟨q, true, t'⟩) (log ++ [⟨.removed, a, k⟩])
      (Function.update s k none) := by
  have hself : (m.write (some a) ⟨q, true, t'⟩).marked a = true := by
    rw [Memory.marked, Memory.word_write_self]
  have hother {b : ℕ} (hb : b ≠ a) : (m.write (some a) ⟨q, true, t'⟩).marked b = m.marked b := by
    rw [Memory.marked, Memory.word_write_of_ne fun hba => hb (Option.some.inj hba), Memory.marked]
  intro k' v
  rcases eq_or_ne k' k with rfl | hne
  · rw [Function.update_self]
    refine iff_of_false (by simp) ?_
    rintro ⟨b, hb, hbm, hbk, -⟩
    have hba : b ≠ a := by
      rintro rfl
      exact absurd (hself.symm.trans hbm) (by decide)
    rw [hother hba] at hbm
    have hb := hshared.unmarked b (linked_append_removed.1 hb) hbm
    exact hba (hshared.eq_of_key hb (hshared.unmarked a ha hm) (hbk.trans hkey.symm))
  · rw [Function.update_of_ne hne, h k' v]
    refine exists_congr fun b => ?_
    rw [linked_append_removed]
    refine and_congr_right fun _ => ?_
    rcases eq_or_ne b a with rfl | hba
    · refine iff_of_false (fun hrest => ?_) fun hrest => ?_
      · exact hne (hrest.2.1.symm.trans hkey)
      · exact hne (hrest.2.1.symm.trans hkey)
    · rw [hother hba]
      exact Iff.rfl

end Represents

/-- **A gap of the chain.** A key is not in the list if it lies between a
place of the chain and the node behind it. -/
theorem Shared.eq_none_of_gap (h : Shared m log nodes) (hrep : Represents m log s)
    (hp : Below m log k p) (hmark : ∀ a, p = some a → m.marked a = false)
    (hgap : ∀ b, m.ptr p = some b → k < m.key b) : s k = none := by
  obtain ⟨l₁, l₂, rfl, hnext, hbelow⟩ : ∃ l₁ l₂, nodes = l₁ ++ l₂ ∧ m.ptr p = l₂.head? ∧
      ∀ a ∈ l₁, m.key a < k := by
    rcases p with - | a
    · exact ⟨[], nodes, rfl, h.chain.next_eq, fun _ ha => absurd ha List.not_mem_nil⟩
    · obtain ⟨l₁, l₂, hnodes, -, hnext, hbelow⟩ := h.exists_append hp (hmark a rfl)
      exact ⟨l₁, l₂, hnodes, hnext, hbelow⟩
  refine hrep.eq_none fun a ha hm hak => ?_
  rcases List.mem_append.1 (h.unmarked a ha hm) with ha | ha
  · exact absurd hak (hbelow a ha).ne
  · rcases l₂ with - | ⟨b, l₂⟩
    · exact absurd ha List.not_mem_nil
    · have hb : k < m.key b := hgap b hnext
      rcases List.mem_cons.1 ha with rfl | ha
      · exact absurd hak hb.ne'
      · have hsorted := (List.pairwise_append.1 h.sorted).2.1
        exact absurd hak (hb.trans (List.rel_of_pairwise_cons hsorted ha)).ne'

end Represents

/-! ## Calls -/

/-- The operation of a call, unless it only cleans up. -/
def Frame.op (m : Memory τ) (f : Frame τ) : Option MapOp :=
  match f.call with
  | .insert n => some (.insert f.key (m.value n))
  | .remove => some (.remove f.key)
  | .search => some (.search f.key)
  | .cleanup => none

/-- The accesses of `find`. -/
def Pc.Finding : Pc → Prop
  | .start | .next | .check _ | .unlink _ => True
  | _ => False

/-- What an open call has seen at its key, by its next access. -/
def Hint (m : Memory τ) (log : List Event) (f : Frame τ) (o : MapOp) (seen : Result → Prop) :
    Pc → Prop
  | .start => True
  | .next => f.pcurr.ptr = none → Saw o seen none
  | .check curr => f.cnext.mark = false →
      (f.cnext.ptr = none → m.key curr < f.key → Saw o seen none) ∧
      (m.key curr = f.key → Saw o seen (some (m.value curr)) ∧
        (m.marked curr = true → Saw o seen none))
  | .unlink _ => True
  | .prepare => True
  | .link => True
  | .mark _ => f.call = .remove
  | .detach _ => False
  | .inspect curr => f.call = .search ∧ Linked log curr ∧ m.key curr = f.key ∧
      (m.marked curr = true → Saw o seen none)

/-- **A call that is watched**: it is open, with what it has seen, or a
`Remove` that has marked its node. -/
inductive Sees (m : Memory τ) (log : List Event) (s : ℕ → Option ℕ) (f : Frame τ) :
    Watch MapOp Result → Prop
  | opened {o : MapOp} {seen : Result → Prop} (op : f.op m = some o)
      (now : ∀ r, MapSpec s o r s → seen r) (hint : Hint m log f o seen f.pc) :
      Sees m log s f (.opened o seen)
  | closed (h : f.call = .cleanup ∧ f.pc.Finding ∨ ∃ curr, f.pc = .detach curr) :
      Sees m log s f (.closed ⟨true, none, none⟩)

/-- **A call that starts somewhere in the list.** -/
structure Started (m : Memory τ) (log : List Event) (f : Frame τ) : Prop where
  inv : FrameInv m log { f with head := none }
  head : Below m log f.key f.head

theorem Started.of_frameInv {m : Memory τ} {log : List Event} {f : Frame τ}
    (h : FrameInv m log f) : Started m log f := by
  have hf : { f with head := none } = f := by rw [← h.head]
  refine ⟨by rwa [hf], fun a ha => ?_⟩
  exact absurd (ha.symm.trans h.head) (by simp)

theorem Started.known_at {m : Memory τ} {log : List Event} {f : Frame τ} {pc : Pc}
    (h : Started m log f) (hpc : f.pc = pc) : Known m log f pc :=
  (h.inv.known_at hpc).congr rfl rfl rfl rfl

/-- The place where a call starts is not marked. -/
def Frame.HeadUnmarked (m : Memory τ) (f : Frame τ) : Prop :=
  ∀ a, f.head = some a → m.marked a = false

section Calls

variable {m m' : Memory τ} {log log' : List Event} {nodes : List ℕ} {s s' : ℕ → Option ℕ}
  {f : Frame τ} {o : MapOp} {seen : Result → Prop} {curr : ℕ}

theorem Frame.op_key (h : f.op m = some o) : o.key = f.key := by
  unfold Frame.op at h
  rcases hcall : f.call with n | - | - | -
  all_goals rw [hcall] at h
  · exact Option.some.inj h ▸ rfl
  · exact Option.some.inj h ▸ rfl
  · exact Option.some.inj h ▸ rfl
  · exact absurd h (by simp)

/-- The state of the map is the one that the call sees now. -/
theorem saw_now (hop : f.op m = some o) (h : ∀ r, MapSpec s o r s → seen r) :
    Saw o seen (s f.key) := by
  rw [← Frame.op_key hop]
  exact saw_of_forall h

/-- What no access takes back, with the values and with what a new mark
means for the map. -/
structure Watches (m : Memory τ) (log : List Event) (m' : Memory τ) (log' : List Event)
    (s' : ℕ → Option ℕ) : Prop where
  keeps : Keeps m log m' log'
  value : ∀ a < m.fresh, m'.value a = m.value a
  marks : ∀ a, Linked log a → m.marked a = false → m'.marked a = true → s' (m.key a) = none

theorem Sees.ne_idle {w : Watch MapOp Result} (h : Sees m log s f w) : w ≠ .idle := by
  rintro rfl
  cases h

theorem Sees.grows_self {w : Watch MapOp Result} (h : Sees m log s f w) :
    Watch.Grows MapSpec s w w := by
  cases h with
  | opened hop hnow hint => exact .opened (fun _ hr => hr) hnow
  | closed hclosed => exact .closed

/-- **A watched call under the accesses of the others.** -/
theorem Sees.mono {w w' : Watch MapOp Result} (h : Sees m log s f w) (hf : Started m log f)
    (hlt : ∀ a, Linked log a → a < m.fresh) (hw : Watches m log m' log' s')
    (hgrow : Watch.Grows MapSpec s' w w') : Sees m' log' s' f w' := by
  cases h with
  | closed hclosed =>
    cases hgrow
    exact .closed hclosed
  | @opened o seen hop hnow hint =>
    cases hgrow with
    | @opened _ _ seen' hle hnow' =>
      have hop' : f.op m' = some o := by
        rw [← hop]
        unfold Frame.op
        rcases hcall : f.call with n | - | - | -
        · exact congrArg (fun v => some (MapOp.insert f.key v))
            (hw.value n (hf.inv.own n hcall).2.1)
        all_goals rfl
      have hkey {a : ℕ} (ha : Linked log a) : m'.key a = m.key a := hw.keeps.key a (hlt a ha)
      -- a mark that another thread has set takes the key out of the map
      have hmark {a : ℕ} (ha : Linked log a) (hak : m.key a = f.key)
          (hsaw : m.marked a = true → Saw o seen none) (hm : m'.marked a = true) :
          Saw o seen' none := by
        rcases hma : m.marked a with - | -
        · have hnone := hw.marks a ha hma hm
          rw [hak] at hnone
          rw [← hnone]
          exact saw_now hop' hnow'
        · exact (hsaw hma).mono hle
      refine .opened hop' hnow' ?_
      rcases hpc : f.pc with - | - | curr | curr | - | - | curr | curr | curr
      all_goals rw [hpc] at hint
      · trivial
      · exact fun hnull => (hint hnull).mono hle
      · have hlinked : Linked log curr := (hf.known_at hpc : Reads m log f curr).linked
        intro hcnext
        obtain ⟨hnull, hfound⟩ := hint hcnext
        rw [hkey hlinked, hw.value curr (hlt curr hlinked)]
        exact ⟨fun hp hk => (hnull hp hk).mono hle,
          fun hk => ⟨(hfound hk).1.mono hle, hmark hlinked hk (hfound hk).2⟩⟩
      · trivial
      · trivial
      · trivial
      · exact hint
      · exact hint
      · obtain ⟨hcall, hlinked, hk, hsaw⟩ := hint
        exact ⟨hcall, hw.keeps.linked curr hlinked, (hkey hlinked).trans hk,
          hmark hlinked hk hsaw⟩

/-- **What an access of a watched call means for the map**: nothing, or it
is the answer to the call. -/
inductive Told (m : Memory τ) (log : List Event) (s : ℕ → Option ℕ) (e : Effect τ)
    (w : Watch MapOp Result) : Prop
  | quiet (represents : Represents e.memory (log ++ e.event.toList) s)
      (marks : ∀ a, Linked log a → e.memory.marked a = m.marked a)
      (running : ∀ f', e.outcome = .running f' → Sees e.memory (log ++ e.event.toList) s f' w)
      (done : ∀ r, e.outcome = .done r → w.Allows (.answered r))
  | answer {o : MapOp} {seen : Result → Prop} {r : Result} {s' : ℕ → Option ℕ}
      (opened : w = .opened o seen) (spec : MapSpec s o r s')
      (represents : Represents e.memory (log ++ e.event.toList) s')
      (marks : ∀ a, Linked log a → m.marked a = false → e.memory.marked a = true →
        s' (m.key a) = none)
      (running : ∀ f', e.outcome = .running f' →
        Sees e.memory (log ++ e.event.toList) s' f' (.closed r))
      (done : ∀ r', e.outcome = .done r' → r' = r)

theorem running_ne_done {r : Result} : Outcome.running f ≠ .done r := by
  simp

theorem done_ne_running {r : Result} : Outcome.done r ≠ .running f := by
  simp

/-- An access that only reads. -/
theorem Told.of_read {w : Watch MapOp Result} {out : Outcome τ} (hrep : Represents m log s)
    (hrunning : ∀ f', out = .running f' → Sees m log s f' w)
    (hdone : ∀ r, out = .done r → w.Allows (.answered r)) : Told m log s ⟨m, out, none⟩ w := by
  have hlog : log ++ (none : Option Event).toList = log := List.append_nil log
  refine .quiet ?_ (fun _ _ => rfl) (fun f' hf' => ?_) hdone
  · rwa [hlog]
  · rw [hlog]
    exact hrunning f' hf'

/-- A read after which an open call goes on. -/
theorem Told.running_opened {f' : Frame τ} (hrep : Represents m log s)
    (hop : f'.op m = some o) (hnow : ∀ r, MapSpec s o r s → seen r)
    (hint : Hint m log f' o seen f'.pc) :
    Told m log s ⟨m, .running f', none⟩ (.opened o seen) := by
  refine .of_read hrep (fun f'' hf'' => ?_) fun r hr => absurd hr running_ne_done
  obtain rfl := Outcome.running.inj hf''
  exact .opened hop hnow hint

/-- A read after which a call that is answered goes on with `find`. -/
theorem Told.running_closed {f' : Frame τ} (hrep : Represents m log s) (hcall : f'.call = .cleanup)
    (hpc : f'.pc.Finding) :
    Told m log s ⟨m, .running f', none⟩ (.closed ⟨true, none, none⟩) := by
  refine .of_read hrep (fun f'' hf'' => ?_) fun r hr => absurd hr running_ne_done
  obtain rfl := Outcome.running.inj hf''
  exact .closed (Or.inl ⟨hcall, hpc⟩)

/-- A read after which a call that is answered returns. -/
theorem Told.done_closed {out : Outcome τ} {r : Result} (hrep : Represents m log s)
    (hout : out = .done r) : Told m log s ⟨m, out, none⟩ (.closed r) := by
  subst hout
  exact .of_read hrep (fun f' hf' => absurd hf' done_ne_running) fun r' hr' =>
    (Outcome.done.inj hr').symm

/-- A write that changes no mark of a linked node. -/
theorem Told.of_write {w : Watch MapOp Result} {out : Outcome τ} {p : Option ℕ} {x : Word τ}
    (hrep : Represents m log s) (hmark : ∀ a, Linked log a → (m.write p x).marked a = m.marked a)
    (hrunning : Represents (m.write p x) log s →
      ∀ f', out = .running f' → Sees (m.write p x) log s f' w)
    (hdone : ∀ r, out = .done r → w.Allows (.answered r)) :
    Told m log s ⟨m.write p x, out, none⟩ w := by
  have hlog : log ++ (none : Option Event).toList = log := List.append_nil log
  have hrep' : Represents (m.write p x) log s :=
    hrep.congr hmark (fun _ _ => rfl) fun _ _ => rfl
  refine .quiet ?_ hmark (fun f' hf' => ?_) hdone
  · rwa [hlog]
  · rw [hlog]
    exact hrunning hrep' f' hf'

/-- `find` has found nothing, and the call has seen that. -/
theorem notFound_opened (log : List Event) (hop : f.op m = some o)
    (hnow : ∀ r, MapSpec s o r s → seen r)
    (hsaw : Saw o seen none) :
    (∀ f', f.notFound = .running f' → Sees m log s f' (.opened o seen)) ∧
      ∀ r, f.notFound = .done r → (Watch.opened o seen).Allows (.answered r) := by
  unfold Frame.notFound
  have hop' := hop
  unfold Frame.op at hop
  rcases hcall : f.call with n | - | - | -
  all_goals rw [hcall] at hop
  · refine ⟨fun f' hf' => ?_, fun r hr => absurd hr running_ne_done⟩
    obtain rfl := Outcome.running.inj hf'
    exact .opened hop' hnow trivial
  · refine ⟨fun f' hf' => absurd hf' done_ne_running, fun r hr => ?_⟩
    obtain rfl := Outcome.done.inj hr
    obtain rfl := Option.some.inj hop
    exact hsaw (fun _ => none) _ rfl (by simp [MapSpec])
  · refine ⟨fun f' hf' => absurd hf' done_ne_running, fun r hr => ?_⟩
    obtain rfl := Outcome.done.inj hr
    obtain rfl := Option.some.inj hop
    exact hsaw (fun _ => none) _ rfl (by simp [MapSpec])
  · exact absurd hop (by simp)

/-- `find` has found a node, and the call has seen its value. -/
theorem found_opened (hop : f.op m = some o) (hnow : ∀ r, MapSpec s o r s → seen r)
    (hlinked : Linked log curr) (hkey : m.key curr = f.key)
    (hsaw : Saw o seen (some (m.value curr))) (hmark : m.marked curr = true → Saw o seen none) :
    (∀ f', f.found curr = .running f' → Sees m log s f' (.opened o seen)) ∧
      ∀ r, f.found curr = .done r → (Watch.opened o seen).Allows (.answered r) := by
  unfold Frame.found
  have hop' := hop
  unfold Frame.op at hop
  rcases hcall : f.call with n | - | - | -
  all_goals rw [hcall] at hop
  · refine ⟨fun f' hf' => absurd hf' done_ne_running, fun r hr => ?_⟩
    obtain rfl := Outcome.done.inj hr
    obtain rfl := Option.some.inj hop
    exact hsaw (fun _ => some (m.value curr)) _ rfl (by simp [MapSpec])
  · refine ⟨fun f' hf' => ?_, fun r hr => absurd hr running_ne_done⟩
    obtain rfl := Outcome.running.inj hf'
    exact .opened hop' hnow hcall
  · refine ⟨fun f' hf' => ?_, fun r hr => absurd hr running_ne_done⟩
    obtain rfl := Outcome.running.inj hf'
    exact .opened hop' hnow ⟨hcall, hlinked, hkey, hmark⟩
  · exact absurd hop (by simp)

/-- A call that is answered and still in `find` cleans up. -/
theorem call_eq_cleanup (h : f.call = .cleanup ∧ f.pc.Finding ∨ ∃ curr, f.pc = .detach curr)
    (hpc : f.pc.Finding) : f.call = .cleanup := by
  rcases h with h | ⟨curr, hcurr⟩
  · exact h.1
  · rw [hcurr] at hpc
    exact hpc.elim

theorem not_closed (h : f.call = .cleanup ∧ f.pc.Finding ∨ ∃ curr, f.pc = .detach curr)
    (hpc : ¬ f.pc.Finding) (hdetach : ∀ curr, f.pc ≠ .detach curr) : False := by
  rcases h with h | ⟨curr, hcurr⟩
  · exact hpc h.2
  · exact hdetach curr hcurr

/-- Cleaning up ends with the answer that was given. -/
theorem notFound_cleanup (hcall : f.call = .cleanup) :
    f.notFound = .done ⟨true, none, none⟩ := by
  rw [Frame.notFound, hcall]

theorem found_cleanup (hcall : f.call = .cleanup) :
    f.found curr = .done ⟨true, none, none⟩ := by
  rw [Frame.found, hcall]

end Calls

section Access

variable [DecidableEq τ] [Zero τ] [One τ] [Add τ] {m : Memory τ} {log : List Event}
  {nodes : List ℕ} {s : ℕ → Option ℕ} {f : Frame τ} {o : MapOp} {seen : Result → Prop} {curr : ℕ}
  {w : Watch MapOp Result}

theorem Frame.value_step (f : Frame τ) (m : Memory τ) : (f.step m).memory.value = m.value := by
  have hcas {p : Option ℕ} {old new : Word τ} {m' : Memory τ} (h : m.cas p old new = some m') :
      m'.value = m.value := by
    obtain ⟨-, rfl⟩ := Memory.cas_eq_some h
    rfl
  unfold Frame.step
  repeat' split
  all_goals first | rfl | exact hcas ‹_›

variable (hrep : Represents m log s) (hw : Sees m log s f w)
include hrep hw

theorem told_detach (hpc : f.pc = .detach curr) : Told m log s (f.step m) w := by
  cases hw with
  | opened hop hnow hint =>
    rw [hpc] at hint
    exact hint.elim
  | closed hclosed =>
    rcases hcas : m.cas f.prev ⟨some curr, false, f.pcurr.tag⟩
      ⟨f.cnext.ptr, false, f.pcurr.tag + 1⟩ with - | m'
    · simp only [Frame.step, hpc, hcas]
      exact .running_closed hrep rfl trivial
    · obtain ⟨hword, rfl⟩ := Memory.cas_eq_some hcas
      simp only [Frame.step, hpc, hcas]
      exact .of_write hrep (fun a _ => Memory.marked_write (by rw [hword]))
        (fun _ f' hf' => absurd hf' done_ne_running) fun r hr => (Outcome.done.inj hr).symm

theorem told_inspect (hpc : f.pc = .inspect curr) : Told m log s (f.step m) w := by
  simp only [Frame.step, hpc]
  refine .of_read hrep (fun f' hf' => absurd hf' done_ne_running) fun r hr => ?_
  obtain rfl := Outcome.done.inj hr
  cases hw with
  | closed hclosed =>
    exact (not_closed hclosed (by simp [hpc, Pc.Finding]) (by simp [hpc])).elim
  | @opened o seen hop hnow hint =>
    rw [hpc] at hint
    obtain ⟨hcall, hlinked, hkey, hsaw⟩ := hint
    obtain rfl : MapOp.search f.key = o := by
      rw [Frame.op, hcall] at hop
      exact Option.some.inj hop
    rcases hmark : m.marked curr with - | -
    · have hsome : s f.key = some (m.value curr) := hkey ▸ hrep.eq_some hlinked hmark
      refine hnow _ ⟨?_, fun _ => hsome.symm, rfl⟩
      rw [hsome, ← Memory.marked, hmark]
      rfl
    · refine hsaw hmark (fun _ => none) _ rfl ⟨?_, fun hok => ?_, rfl⟩
      · rw [← Memory.marked, hmark]
        rfl
      · rw [← Memory.marked, hmark] at hok
        exact absurd hok (by simp)

variable (hf : Started m log f)
include hf

theorem told_prepare (hpc : f.pc = .prepare) : Told m log s (f.step m) w := by
  cases hw with
  | closed hclosed =>
    exact (not_closed hclosed (by simp [hpc, Pc.Finding]) (by simp [hpc])).elim
  | opened hop hnow hint =>
    rcases hcall : f.call with n | - | - | -
    · simp only [Frame.step, hpc, hcall]
      have hn : ¬ Linked log n := (hf.inv.own n hcall).1
      refine .of_write hrep (fun a ha => ?_) (fun hrep' f' hf' => ?_) fun r hr =>
        absurd hr running_ne_done
      · rw [Memory.marked, Memory.word_write_of_ne, Memory.marked]
        rintro hae
        exact hn (Option.some.inj hae ▸ ha)
      · obtain rfl := Outcome.running.inj hf'
        exact .opened hop hnow trivial
    all_goals
      simp only [Frame.step, hpc, hcall]
      exact .running_opened hrep hop hnow hint

variable (h : Shared m log nodes)
include h

theorem told_start (hhead : f.HeadUnmarked m) (hpc : f.pc = .start) :
    Told m log s (f.step m) w := by
  simp only [Frame.step, hpc]
  cases hw with
  | closed hclosed =>
    have hcall := call_eq_cleanup hclosed (by rw [hpc]; trivial)
    exact .running_closed hrep hcall trivial
  | opened hop hnow hint =>
    refine .running_opened hrep hop hnow fun hnull => ?_
    have hgap := h.eq_none_of_gap hrep hf.head hhead fun b hb =>
      absurd (hnull.symm.trans hb) (by simp)
    rw [← hgap]
    exact saw_now hop hnow

theorem told_next (hpc : f.pc = .next) : Told m log s (f.step m) w := by
  rcases hcurr : f.pcurr.ptr with - | curr
  · simp only [Frame.step, hpc, hcurr]
    cases hw with
    | closed hclosed =>
      have hcall := call_eq_cleanup hclosed (by rw [hpc]; trivial)
      exact .done_closed hrep (notFound_cleanup hcall)
    | opened hop hnow hint =>
      rw [hpc] at hint
      obtain ⟨hrunning, hdone⟩ := notFound_opened log hop hnow (hint hcurr)
      exact .of_read hrep hrunning hdone
  · simp only [Frame.step, hpc, hcurr]
    cases hw with
    | closed hclosed =>
      have hcall := call_eq_cleanup hclosed (by rw [hpc]; trivial)
      exact .running_closed hrep hcall trivial
    | @opened o seen hop hnow hint =>
      have hlinked : Linked log curr := hf.inv.pcurr curr hcurr
      refine .running_opened hrep hop hnow fun hmark =>
        ⟨fun hnull hlt => ?_, fun hkey => ⟨?_, fun hm => ?_⟩⟩
      · have hbelow : Below m log f.key (some curr) := by
          intro a ha
          obtain rfl := Option.some.inj ha
          exact ⟨hlinked, hlt⟩
        have hgap := h.eq_none_of_gap hrep hbelow
          (fun a ha => Option.some.inj ha ▸ hmark) fun b hb =>
            absurd (hnull.symm.trans hb) (by simp)
        rw [← hgap]
        exact saw_now hop hnow
      · have hsome := hrep.eq_some hlinked hmark
        rw [hkey] at hsome
        rw [← hsome]
        exact saw_now hop hnow
      · exact absurd (hmark.symm.trans hm) (by decide)

theorem told_check (hpc : f.pc = .check curr) : Told m log s (f.step m) w := by
  have hreads : Reads m log f curr := hf.known_at hpc
  simp only [Frame.step, hpc]
  cases hw with
  | closed hclosed =>
    have hcall := call_eq_cleanup hclosed (by rw [hpc]; trivial)
    split_ifs
    · exact .running_closed hrep hcall trivial
    · exact .running_closed hrep hcall trivial
    · exact .done_closed hrep (found_cleanup hcall)
    · exact .done_closed hrep (notFound_cleanup hcall)
    · exact .running_closed hrep hcall trivial
  | @opened o seen hop hnow hint =>
    rw [hpc] at hint
    split_ifs with hprev hmark hle hkey
    · exact .running_opened hrep hop hnow trivial
    · exact .running_opened hrep hop hnow trivial
    · obtain ⟨hsaw, hmarked⟩ := (hint (by simpa using hmark)).2 hkey
      obtain ⟨hrunning, hdone⟩ := found_opened hop hnow hreads.linked hkey hsaw hmarked
      exact .of_read hrep hrunning hdone
    · -- the key lies in the gap before the current node
      have hword : m.word f.prev = ⟨some curr, false, f.pcurr.tag⟩ := not_not.1 hprev
      have hgap := h.eq_none_of_gap hrep hf.inv.prev
        (fun a ha => Memory.marked_of_word hword ha) fun b hb => by
          have hb : some curr = some b := by rwa [Memory.ptr, hword] at hb
          obtain rfl := Option.some.inj hb
          dsimp only
          omega
      have hsaw := saw_now hop hnow
      rw [show s f.key = none from hgap] at hsaw
      obtain ⟨hrunning, hdone⟩ := notFound_opened log hop hnow hsaw
      exact .of_read hrep hrunning hdone
    · refine .running_opened hrep hop hnow fun hnull => ?_
      exact (hint (by simpa using hmark)).1 hnull (by omega)

theorem told_unlink (hpc : f.pc = .unlink curr) : Told m log s (f.step m) w := by
  obtain ⟨hreads, hmark⟩ : Reads m log f curr ∧ f.cnext.mark = true := hf.known_at hpc
  have hcurr := hreads.marked hmark
  rcases hcas : m.cas f.prev ⟨some curr, false, f.pcurr.tag⟩
    ⟨f.cnext.ptr, false, f.pcurr.tag + 1⟩ with - | m'
  · simp only [Frame.step, hpc, hcas]
    cases hw with
    | closed hclosed =>
      have hcall := call_eq_cleanup hclosed (by rw [hpc]; trivial)
      exact .running_closed hrep hcall trivial
    | opened hop hnow hint => exact .running_opened hrep hop hnow trivial
  · obtain ⟨hword, rfl⟩ := Memory.cas_eq_some hcas
    simp only [Frame.step, hpc, hcas]
    refine .of_write hrep (fun a _ => Memory.marked_write (by rw [hword]))
      (fun hrep' f' hf' => ?_) fun r hr =>
        absurd hr running_ne_done
    obtain rfl := Outcome.running.inj hf'
    cases hw with
    | closed hclosed =>
      have hcall := call_eq_cleanup hclosed (by rw [hpc]; trivial)
      exact .closed (Or.inl ⟨hcall, trivial⟩)
    | opened hop hnow hint =>
      refine .opened hop hnow fun hnull => ?_
      have hnull : f.cnext.ptr = none := hnull
      obtain ⟨nodes', hnodes'⟩ := h.unlink hf.inv.prev hword
        (by rw [Memory.marked, hcurr, hmark]) (by rw [Memory.ptr, hcurr])
      have hgap := hnodes'.eq_none_of_gap hrep' hf.inv.prev
        (fun a ha => (Memory.marked_write (by rw [hword])).trans (Memory.marked_of_word hword ha))
        fun b hb => by
          rw [Memory.ptr, Memory.word_write_self] at hb
          exact absurd (hnull.symm.trans hb) (by simp)
      have hsaw := saw_now hop hnow
      rwa [show s f.key = none from hgap] at hsaw

theorem told_link (hpc : f.pc = .link) : Told m log s (f.step m) w := by
  cases hw with
  | closed hclosed =>
    exact (not_closed hclosed (by simp [hpc, Pc.Finding]) (by simp [hpc])).elim
  | @opened o seen hop hnow hint =>
    obtain ⟨habove, hnode⟩ : (∀ b, f.pcurr.ptr = some b → f.key < m.key b) ∧
        ∀ n, f.call = .insert n → m.ptr (some n) = f.pcurr.ptr ∧ m.marked n = false :=
      hf.known_at hpc
    rcases hcall : f.call with n | - | - | -
    · rcases hcas : m.cas f.prev ⟨f.pcurr.ptr, false, f.pcurr.tag⟩
        ⟨some n, false, f.pcurr.tag + 1⟩ with - | m'
      · simp only [Frame.step, hpc, hcall, hcas]
        exact .running_opened hrep hop hnow trivial
      · obtain ⟨hword, rfl⟩ := Memory.cas_eq_some hcas
        simp only [Frame.step, hpc, hcall, hcas]
        have hgap : s f.key = none := h.eq_none_of_gap hrep hf.inv.prev
          (fun a ha => Memory.marked_of_word hword ha) fun b hb =>
            habove b (by rwa [Memory.ptr, hword] at hb)
        obtain rfl : MapOp.insert f.key (m.value n) = o := by
          rw [Frame.op, hcall] at hop
          exact Option.some.inj hop
        refine .answer rfl ⟨?_, rfl⟩ ?_ (fun a _ hm hm' => ?_)
          (fun f' hf' => absurd hf' done_ne_running)
          fun r' hr' => (Outcome.done.inj hr').symm
        · rw [hgap]
          rfl
        · rw [hgap]
          exact hrep.link hword (hf.inv.own n hcall).2.2 (hnode n hcall).2 hgap
        · rw [Memory.marked_write (by rw [hword])] at hm'
          exact absurd (hm.symm.trans hm') (by decide)
    all_goals
      simp only [Frame.step, hpc, hcall]
      exact .running_opened hrep hop hnow hint

theorem told_mark (hpc : f.pc = .mark curr) : Told m log s (f.step m) w := by
  obtain ⟨hreads, hkey⟩ : Reads m log f curr ∧ m.key curr = f.key := hf.known_at hpc
  cases hw with
  | closed hclosed =>
    exact (not_closed hclosed (by simp [hpc, Pc.Finding]) (by simp [hpc])).elim
  | @opened o seen hop hnow hint =>
    rw [hpc] at hint
    rcases hcas : m.cas (some curr) { f.cnext with mark := false }
      ⟨f.cnext.ptr, true, f.cnext.tag + 1⟩ with - | m'
    · simp only [Frame.step, hpc, hcas]
      exact .running_opened hrep hop hnow trivial
    · obtain ⟨hword, rfl⟩ := Memory.cas_eq_some hcas
      simp only [Frame.step, hpc, hcas]
      have hmark : m.marked curr = false := by rw [Memory.marked, hword]
      have hsome : s f.key = some (m.value curr) := hkey ▸ hrep.eq_some hreads.linked hmark
      obtain rfl : MapOp.remove f.key = o := by
        rw [Frame.op, show f.call = .remove from hint] at hop
        exact Option.some.inj hop
      refine .answer (r := ⟨true, none, none⟩) rfl ⟨?_, rfl⟩
        (hrep.mark h hreads.linked hmark hkey) (fun a ha hm hm' => ?_)
        (fun f' hf' => ?_) fun r' hr' => absurd hr' running_ne_done
      · rw [hsome]
        rfl
      · -- the node that was marked is the current one
        rcases eq_or_ne a curr with rfl | hne
        · rw [hkey, Function.update_self]
        · rw [Memory.marked,
            Memory.word_write_of_ne fun hac => hne (Option.some.inj hac)] at hm'
          exact absurd (hm.symm.trans hm') (by decide)
      · obtain rfl := Outcome.running.inj hf'
        exact .closed (Or.inr ⟨curr, rfl⟩)

/-- **Every access of a watched call.** -/
theorem Frame.told_step (hhead : f.HeadUnmarked m) : Told m log s (f.step m) w := by
  rcases hpc : f.pc with - | - | curr | curr | - | - | curr | curr | curr
  · exact told_start hrep hw hf h hhead hpc
  · exact told_next hrep hw hf h hpc
  · exact told_check hrep hw hf h hpc
  · exact told_unlink hrep hw hf h hpc
  · exact told_prepare hrep hw hf hpc
  · exact told_link hrep hw hf h hpc
  · exact told_mark hrep hw hf h hpc
  · exact told_detach hrep hw hpc
  · exact told_inspect hrep hw hpc

end Access

/-! ## Histories -/

/-- What the client sees of an access. -/
def Outcome.actions (t : θ) : Outcome τ → List (Action θ MapOp Result)
  | .running _ => []
  | .done r => [.ret t r]

namespace Config

variable [DecidableEq θ]

section

variable [DecidableEq τ] [Zero τ] [One τ] [Add τ]

/-- **The histories of the list**: the calls and the returns of the threads
in an interleaving from the empty list. -/
inductive Runs : List (Action θ MapOp Result) → Config θ τ → Prop
  | init : Runs [] init
  | insert {w : List (Action θ MapOp Result)} {c : Config θ τ} {t : θ} (key value : ℕ) :
      Runs w c → c.thread t = none →
      Runs (w ++ [.call t (.insert key value)]) (c.callInsert t key value)
  | remove {w : List (Action θ MapOp Result)} {c : Config θ τ} {t : θ} (key : ℕ) :
      Runs w c → c.thread t = none → Runs (w ++ [.call t (.remove key)]) (c.callRemove t key)
  | search {w : List (Action θ MapOp Result)} {c : Config θ τ} {t : θ} (key : ℕ) :
      Runs w c → c.thread t = none → Runs (w ++ [.call t (.search key)]) (c.callSearch t key)
  | advance {w : List (Action θ MapOp Result)} {c : Config θ τ} {t : θ} {f : Frame τ} :
      Runs w c → c.thread t = some f →
      Runs (w ++ (f.step c.memory).outcome.actions t) (c.advance t f)

theorem Runs.inv {w : List (Action θ MapOp Result)} {c : Config θ τ} (h : Runs w c) : Inv c := by
  induction h with
  | init => exact Inv.init
  | insert key value _ ht ih => exact ih.step (.insert key value ht)
  | remove key _ ht ih => exact ih.step (.remove key ht)
  | search key _ ht ih => exact ih.step (.search key ht)
  | advance _ ht ih => exact ih.step (.advance ht)

end

/-- **The threads and the map**: it has the contents of the list, and each
call is watched. -/
structure Shows (c : Config θ τ) (s : ℕ → Option ℕ) (g : θ → Watch MapOp Result) : Prop where
  represents : Represents c.memory c.log s
  idle : ∀ t, c.thread t = none → g t = .idle
  sees : ∀ t f, c.thread t = some f → Sees c.memory c.log s f (g t)

variable {c : Config θ τ} {s s' : ℕ → Option ℕ} {g g' : θ → Watch MapOp Result} {t : θ}
  {w : List (Action θ MapOp Result)}

/-- One thread goes on, and the others are where they are. -/
theorem Shows.update (h : Shows c s g) (hinv : Inv c) {m : Memory τ} {log : List Event}
    {f? : Option (Frame τ)} (hrep : Represents m log s')
    (hw : Watches c.memory c.log m log s')
    (hgrow : ∀ t' ≠ t, g t' ≠ .idle → Watch.Grows MapSpec s' (g t') (g' t'))
    (hidle : ∀ t' ≠ t, g t' = .idle → g' t' = .idle) (hnone : f? = none → g' t = .idle)
    (hsome : ∀ f, f? = some f → Sees m log s' f (g' t)) :
    Shows ⟨m, Function.update c.thread t f?, log⟩ s' g' := by
  obtain ⟨nodes, hnodes⟩ := hinv.shared
  refine ⟨hrep, fun t' ht' => ?_, fun t' f ht' => ?_⟩
  all_goals dsimp only at ht'
  · rcases eq_or_ne t' t with rfl | hne
    · rw [Function.update_self] at ht'
      exact hnone ht'
    · rw [Function.update_of_ne hne] at ht'
      exact hidle t' hne (h.idle t' ht')
  · rcases eq_or_ne t' t with rfl | hne
    · rw [Function.update_self] at ht'
      exact hsome f ht'
    · rw [Function.update_of_ne hne] at ht'
      have hsees := h.sees t' f ht'
      exact hsees.mono (.of_frameInv (hinv.frame t' f ht')) hnodes.fresh hw
        (hgrow t' hne hsees.ne_idle)

/-- A call starts. -/
theorem Shows.enter (h : Shows c s g) (hinv : Inv c) {m : Memory τ} {f : Frame τ} {o : MapOp}
    (hrep : Represents m c.log s) (hw : Watches c.memory c.log m c.log s)
    (hop : f.op m = some o) (hpc : f.pc = .start) :
    Shows ⟨m, Function.update c.thread t (some f), c.log⟩ s
      (Function.update g t (.opened o fun r => MapSpec s o r s)) := by
  refine h.update hinv hrep hw (fun t' hne hg => ?_) (fun t' hne hg => ?_) (fun hf => nomatch hf)
    fun f' hf' => ?_
  · rw [Function.update_of_ne hne]
    rcases hf : c.thread t' with - | f'
    · exact absurd (h.idle t' hf) hg
    · exact (h.sees t' f' hf).grows_self
  · rw [Function.update_of_ne hne, hg]
  · obtain rfl := Option.some.inj hf'
    rw [Function.update_self]
    exact .opened hop (fun _ hr => hr) (by rw [hpc]; trivial)

theorem watches_refl {m : Memory τ} {log : List Event} : Watches m log m log s :=
  ⟨Keeps.refl, fun _ _ => rfl, fun _ _ hm hm' => absurd (hm.symm.trans hm') (by decide)⟩

section NewNode

variable [Zero τ] {m : Memory τ} {log : List Event} {nodes : List ℕ}

/-- A new node is none of those that are linked. -/
theorem word_newNode (h : Shared m log nodes) (key value : ℕ) {a : ℕ} (ha : Linked log a) :
    (m.newNode key value).word (some a) = m.word (some a) :=
  Function.update_of_ne (fun hae => (h.fresh a ha).ne (Option.some.inj hae)) _ _

theorem watches_newNode (h : Shared m log nodes) (key value : ℕ) :
    Watches m log (m.newNode key value) log s := by
  refine ⟨⟨fun _ ha => ha, fun a ha => Function.update_of_ne ha.ne _ _, Nat.le_succ _,
    fun a ha _ => word_newNode h key value ha⟩, fun a ha => Function.update_of_ne ha.ne _ _,
    fun a ha hm hm' => ?_⟩
  rw [Memory.marked, word_newNode h key value ha] at hm'
  exact absurd (hm.symm.trans hm') (by decide)

theorem represents_newNode (h : Shared m log nodes) (hrep : Represents m log s) (key value : ℕ) :
    Represents (m.newNode key value) log s := by
  refine hrep.congr (fun a ha => ?_) (fun a ha => Function.update_of_ne (h.fresh a ha).ne _ _)
    fun a ha => Function.update_of_ne (h.fresh a ha).ne _ _
  rw [Memory.marked, word_newNode h key value ha, Memory.marked]

end NewNode

variable [DecidableEq τ] [Zero τ] [One τ] [Add τ]

/-- **An access of one thread.** -/
theorem Shows.advance (h : Shows c s g) (hinv : Inv c)
    (hwatched : Watched MapSpec (fun _ => none) w s g) {f : Frame τ} (ht : c.thread t = some f) :
    ∃ s' g', Watched MapSpec (fun _ => none) (w ++ (f.step c.memory).outcome.actions t) s' g' ∧
      Shows (c.advance t f) s' g' := by
  obtain ⟨nodes, hnodes⟩ := hinv.shared
  have hf := hinv.frame t f ht
  have hkeeps := (f.safe_step hnodes hf).keeps
  have hvalue (a : ℕ) : (f.step c.memory).memory.value a = c.memory.value a := by
    rw [Frame.value_step]
  have hhead : f.HeadUnmarked c.memory := fun a ha => absurd (ha.symm.trans hf.head) (by simp)
  have hself {t' : θ} (hg : g t' ≠ .idle) : Watch.Grows MapSpec s (g t') (g t') := by
    rcases hf' : c.thread t' with - | f'
    · exact absurd (h.idle t' hf') hg
    · exact (h.sees t' f' hf').grows_self
  have htold := f.told_step h.represents (h.sees t f ht) (.of_frameInv hf) hnodes hhead
  generalize he : f.step c.memory = e at htold hkeeps hvalue
  have hadvance : c.advance t f =
      ⟨e.memory, Function.update c.thread t e.outcome.frame?, c.log ++ e.event.toList⟩ := by
    rw [Config.advance, he]
  rw [hadvance]
  cases htold with
  | quiet hrep hmarks hrunning hdone =>
    have hw : Watches c.memory c.log e.memory (c.log ++ e.event.toList) s :=
      ⟨hkeeps, fun a _ => hvalue a, fun a ha hm hm' =>
        absurd (hm.symm.trans ((hmarks a ha).symm.trans hm')) (by decide)⟩
    rcases hout : e.outcome with f' | r
    · refine ⟨s, g, by rwa [Outcome.actions, List.append_nil], ?_⟩
      refine h.update hinv hrep hw (fun t' _ hg => hself hg) (fun t' _ hg => hg)
        (fun hf' => nomatch hf') fun f'' hf'' => ?_
      exact hrunning f'' (hout.trans (congrArg _ (Option.some.inj hf'')))
    · refine ⟨s, _, hwatched.ret (hdone r hout), ?_⟩
      refine h.update hinv hrep hw (fun t' hne hg => ?_) (fun t' hne hg => ?_)
        (fun _ => Function.update_self ..) fun f' hf' => nomatch hf'
      · rw [Function.update_of_ne hne]
        exact hself hg
      · rwa [Function.update_of_ne hne]
  | @answer o seen r s' hopened hspec hrep hmarks hrunning hdone =>
    have hw : Watches c.memory c.log e.memory (c.log ++ e.event.toList) s' :=
      ⟨hkeeps, fun a _ => hvalue a, hmarks⟩
    have hanswered := hwatched.answer hopened hspec
    rcases hout : e.outcome with f' | r'
    · refine ⟨s', _, by rwa [Outcome.actions, List.append_nil], ?_⟩
      refine h.update hinv hrep hw (fun t' hne hg => ?_) (fun t' hne hg => ?_)
        (fun hf' => nomatch hf') fun f'' hf'' => ?_
      · rw [Function.update_of_ne hne]
        exact Watch.grows_note MapSpec s' hg
      · rw [Function.update_of_ne hne, hg]
        rfl
      · rw [Function.update_self]
        exact hrunning f'' (hout.trans (congrArg _ (Option.some.inj hf'')))
    · obtain rfl := hdone r' hout
      have hallows : (Function.update (fun t' => (g t').note MapSpec s') t (.closed r') t).Allows
          (.answered r') := by
        rw [Function.update_self]
        exact rfl
      refine ⟨s', _, hanswered.ret hallows, ?_⟩
      refine h.update hinv hrep hw (fun t' hne hg => ?_) (fun t' hne hg => ?_)
        (fun _ => Function.update_self ..) fun f' hf' => nomatch hf'
      · rw [Function.update_of_ne hne, Function.update_of_ne hne]
        exact Watch.grows_note MapSpec s' hg
      · rw [Function.update_of_ne hne, Function.update_of_ne hne, hg]
        rfl

/-- Every run is one of the watched map. -/
theorem Runs.watched {c : Config θ τ} (h : Runs w c) :
    ∃ s g, Watched MapSpec (fun _ => none) w s g ∧ Shows c s g := by
  induction h with
  | init =>
    exact ⟨_, _, .nil, represents_new, fun _ _ => rfl, fun _ _ hf => nomatch hf⟩
  | @insert w c t key value hrun ht ih =>
    obtain ⟨s, g, hwatched, hshows⟩ := ih
    obtain ⟨nodes, hnodes⟩ := hrun.inv.shared
    refine ⟨s, _, hwatched.call (hshows.idle t ht), ?_⟩
    refine hshows.enter hrun.inv (represents_newNode hnodes hshows.represents key value)
      (watches_newNode hnodes key value) ?_ rfl
    simp [Frame.op, Frame.insert, Memory.newNode]
  | @remove w c t key hrun ht ih =>
    obtain ⟨s, g, hwatched, hshows⟩ := ih
    exact ⟨s, _, hwatched.call (hshows.idle t ht),
      hshows.enter hrun.inv hshows.represents watches_refl rfl rfl⟩
  | @search w c t key hrun ht ih =>
    obtain ⟨s, g, hwatched, hshows⟩ := ih
    exact ⟨s, _, hwatched.call (hshows.idle t ht),
      hshows.enter hrun.inv hshows.represents watches_refl rfl rfl⟩
  | @advance w c t f hrun ht ih =>
    obtain ⟨s, g, hwatched, hshows⟩ := ih
    exact hshows.advance hrun.inv hwatched ht

/-- **The list is linearizable.** The calls of `Insert`, `Remove` and
`Search` by any number of threads, in any interleaving of their accesses,
return what they return from a map that answers each of them at one moment
between its call and its return. That map ends with the contents of the
list: the nodes met from the head that are not marked. -/
theorem linearizable {c : Config θ τ} (hrun : Runs w c) :
    ∃ s nodes, Linearizable MapSpec (fun _ => none) w s ∧ Chain c.memory.ptr none nodes ∧
      ∀ k v, s k = some v ↔
        ∃ a ∈ nodes, c.memory.marked a = false ∧ c.memory.key a = k ∧ c.memory.value a = v := by
  obtain ⟨s, g, hwatched, hshows⟩ := hrun.watched
  obtain ⟨nodes, hnodes⟩ := hrun.inv.shared
  refine ⟨s, nodes, hwatched.to_linearizable, hnodes.chain, fun k v => ?_⟩
  rw [hshows.represents k v]
  refine exists_congr fun a => ⟨fun ha => ?_, fun ha => ⟨hnodes.linked a ha.1, ha.2⟩⟩
  exact ⟨hnodes.unmarked a ha.1 ha.2.1, ha.2⟩

/-- What the client sees of the next accesses of some threads. -/
def actions (c : Config θ τ) : List θ → List (Action θ MapOp Result)
  | [] => []
  | t :: ts =>
    (match c.thread t with
      | some f => (f.step c.memory).outcome.actions t
      | none => []) ++ (c.tick t).actions ts

theorem Runs.ticks {c : Config θ τ} (h : Runs w c) (ts : List θ) :
    Runs (w ++ c.actions ts) (ts.foldl tick c) := by
  induction ts generalizing c w with
  | nil => rwa [actions, List.append_nil]
  | cons t ts ih =>
    rw [actions, ← List.append_assoc, List.foldl_cons]
    refine ih ?_
    unfold tick
    rcases ht : c.thread t with - | f
    · rwa [List.append_nil]
    · exact h.advance ht

/-- A `Search` finds the node of the key `5` and sees its mark, which a
`Remove` has set meanwhile. -/
def searchRemove : Config Bool ℕ :=
  [true, true, true, false, false, false, false, false, true].foldl tick
    ((([true, true, true, true].foldl tick (init.callInsert true 5 7)).callSearch true
      5).callRemove false 5)

theorem linearizable_searchRemove :
    ∃ s nodes, Linearizable MapSpec (fun _ => none)
        [.call true (.insert 5 7), .ret true ⟨true, none, none⟩, .call true (.search 5),
          .call false (.remove 5), .ret false ⟨true, none, none⟩, .ret true ⟨false, some 0, some 7⟩]
        s ∧ Chain searchRemove.memory.ptr none nodes ∧
      ∀ k v, s k = some v ↔ ∃ a ∈ nodes, searchRemove.memory.marked a = false ∧
        searchRemove.memory.key a = k ∧ searchRemove.memory.value a = v := by
  have hinsert : Runs [.call true (.insert 5 7)] ((init : Config Bool ℕ).callInsert true 5 7) :=
    .insert 5 7 .init rfl
  have hcalls := ((hinsert.ticks [true, true, true, true]).search 5 (t := true)
    (by decide +kernel)).remove 5 (t := false) (by decide +kernel)
  exact linearizable (hcalls.ticks [true, true, true, false, false, false, false, false, true])

end Config

end Concurrent

end CppEtudes
