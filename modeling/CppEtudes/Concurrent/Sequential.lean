import CppEtudes.Common.Fuel
import CppEtudes.Concurrent.Shared

/-!
# One call at a time

A call of the lock-free list that no other thread meets. `find` walks the
chain from the place it is given to the first key that is not below its
own, and every swap succeeds. The place may be any node of the list with
a key below the one that is looked for, as the hash table uses it.
-/

namespace CppEtudes

namespace Concurrent

open Links

variable {τ : Type}

/-- **A list at rest**: in order, and without a mark. -/
structure Listed (m : Memory τ) (nodes : List ℕ) : Prop where
  chain : Chain m.ptr none nodes
  sorted : nodes.Pairwise fun a b => m.key a < m.key b
  unmarked : ∀ q ∈ none :: nodes.map some, (m.word q).mark = false
  fresh : ∀ a ∈ nodes, a < m.fresh

/-- A place from which the key `k` is found. -/
def Starts (m : Memory τ) (nodes : List ℕ) (k : ℕ) (p : Option ℕ) : Prop :=
  p = none ∨ ∃ a ∈ nodes, p = some a ∧ m.key a < k

theorem Memory.newNode_eq [Zero τ] (m : Memory τ) (k v : ℕ) :
    m.newNode k v = m.newNodeAt m.fresh k v := by
  rw [newNode, newNodeAt, max_eq_right (Nat.le_succ _)]

theorem Memory.key_newNode_self [Zero τ] {m : Memory τ} {k v : ℕ} :
    (m.newNode k v).key m.fresh = k := Function.update_self ..

theorem mem_of_place {a : ℕ} {nodes : List ℕ} (h : some a ∈ none :: nodes.map some) : a ∈ nodes := by
  simpa using h

namespace Listed

variable {m : Memory τ} {nodes : List ℕ} {p : Option ℕ} {k : ℕ}

section Facts

variable (h : Listed m nodes)
include h

theorem nodup : nodes.Nodup :=
  h.sorted.imp fun hlt => by
    rintro rfl
    exact Nat.lt_irrefl _ hlt

theorem nodup_places : ((none : Option ℕ) :: nodes.map some).Nodup :=
  Chain.nodup_places h.nodup fun _ _ => by simp

theorem mark_eq_false {a : ℕ} (ha : a ∈ nodes) : (m.word (some a)).mark = false :=
  h.unmarked (some a) (List.mem_cons_of_mem _ (List.mem_map_of_mem ha))

theorem eq_of_key {a b : ℕ} (ha : a ∈ nodes) (hb : b ∈ nodes) (hk : m.key a = m.key b) : a = b := by
  have hkeys : (nodes.map m.key).Nodup :=
    List.pairwise_map.2 (h.sorted.imp fun hlt => Nat.ne_of_lt hlt)
  exact List.inj_on_of_nodup_map hkeys ha hb hk

/-- The list behind a place from which a key is found. -/
theorem exists_append (hp : Starts m nodes k p) :
    ∃ l₁ l₂, nodes = l₁ ++ l₂ ∧ last none l₁ = p ∧ Chain m.ptr p l₂ ∧ ∀ a ∈ l₁, m.key a < k := by
  rcases hp with rfl | ⟨c, hc, rfl, hck⟩
  · exact ⟨[], nodes, rfl, rfl, h.chain, fun a ha => absurd ha List.not_mem_nil⟩
  · obtain ⟨l₁, l₂, rfl, hchain⟩ := h.chain.exists_append_of_mem hc
    refine ⟨l₁ ++ [c], l₂, by simp, by simp [last], hchain, fun a ha => ?_⟩
    rcases List.mem_append.1 ha with ha | ha
    · have hlt := (List.pairwise_append.1 h.sorted).2.2 a ha c List.mem_cons_self
      exact hlt.trans hck
    · rwa [List.mem_singleton.1 ha]

theorem fresh_not_mem : m.fresh ∉ nodes := fun hn =>
  Nat.lt_irrefl _ (h.fresh _ hn)

theorem key_newNode [Zero τ] {a k v : ℕ} (ha : a ∈ nodes) :
    (m.newNode k v).key a = m.key a := Function.update_of_ne (h.fresh a ha).ne _ _

theorem value_newNode [Zero τ] {a k v : ℕ} (ha : a ∈ nodes) :
    (m.newNode k v).value a = m.value a := Function.update_of_ne (h.fresh a ha).ne _ _

theorem starts_newNode [Zero τ] (hp : Starts m nodes k p) (v : ℕ) :
    Starts (m.newNode k v) nodes ((m.newNode k v).key m.fresh) p := by
  rw [Memory.key_newNode_self]
  refine hp.imp_right ?_
  rintro ⟨a, ha, rfl, hlt⟩
  exact ⟨a, ha, rfl, by rwa [h.key_newNode ha]⟩

/-- **A new node** at an address that no node of the list has. -/
theorem newNodeAt [Zero τ] {n : ℕ} (hn : n ∉ nodes) (k v : ℕ) :
    Listed (m.newNodeAt n k v) nodes := by
  have hword (q : Option ℕ) (hq : q ∈ none :: nodes.map some) :
      (m.newNodeAt n k v).word q = m.word q := by
    refine Function.update_of_ne ?_ _ _
    rintro rfl
    exact hn (mem_of_place hq)
  have hkey {a : ℕ} (ha : a ∈ nodes) : (m.newNodeAt n k v).key a = m.key a :=
    Function.update_of_ne (ne_of_mem_of_not_mem ha hn) _ _
  refine ⟨h.chain.congr fun q hq => ?_, ?_, fun q hq => ?_, fun a ha => ?_⟩
  · rw [Memory.ptr, hword q hq, Memory.ptr]
  · exact h.sorted.imp_of_mem fun ha hb hlt => by rwa [hkey ha, hkey hb]
  · rw [hword q hq]
    exact h.unmarked q hq
  · exact (h.fresh a ha).trans_le (le_max_left ..)

theorem newNode [Zero τ] (v : ℕ) : Listed (m.newNode k v) nodes := by
  rw [Memory.newNode_eq]
  exact h.newNodeAt h.fresh_not_mem k v

end Facts

/-- **A node is linked in** behind `l₁`. -/
theorem link [Zero τ] {l₁ l₂ : List ℕ} {n : ℕ} {t : τ} (h : Listed m (l₁ ++ l₂))
    (hn : n ∉ l₁ ++ l₂) (hfresh : n < m.fresh) (hlast : last none l₁ = p)
    (hbelow : ∀ a ∈ l₁, m.key a < m.key n) (habove : ∀ b ∈ l₂, m.key n < m.key b) :
    Listed ((m.write (some n) ⟨m.ptr p, false, 0⟩).write p ⟨some n, false, t⟩)
      (l₁ ++ n :: l₂) := by
  subst hlast
  have hother (q : Option ℕ) (hq : q ∈ none :: (l₁ ++ l₂).map some) : q ≠ some n := by
    rintro rfl
    exact hn (mem_of_place hq)
  have hmem (a : ℕ) : a ∈ l₁ ++ n :: l₂ ↔ a = n ∨ a ∈ l₁ ++ l₂ := by
    simp only [List.mem_append, List.mem_cons]
    tauto
  refine ⟨?_, ?_, fun q hq => ?_, fun a ha => ?_⟩
  · rw [Memory.ptr_write]
    refine Chain.link ?_ h.nodup_places hother ?_
    · refine h.chain.congr fun q hq => ?_
      rw [Memory.ptr, Memory.word_write_of_ne (hother q hq), Memory.ptr]
    · rw [Memory.ptr, Memory.word_write_self]
      exact h.chain.drop.next_eq
  · obtain ⟨hs₁, hs₂, hs₁₂⟩ := List.pairwise_append.1 h.sorted
    refine List.pairwise_append.2 ⟨hs₁, List.pairwise_cons.2 ⟨habove, hs₂⟩, fun a ha b hb => ?_⟩
    rcases List.mem_cons.1 hb with rfl | hb
    · exact hbelow a ha
    · exact hs₁₂ a ha b hb
  · rcases eq_or_ne q (last none l₁) with rfl | hlast
    · rw [Memory.word_write_self]
    · rw [Memory.word_write_of_ne hlast]
      rcases eq_or_ne q (some n) with rfl | hqn
      · rw [Memory.word_write_self]
      · rw [Memory.word_write_of_ne hqn]
        refine h.unmarked q ?_
        rcases List.mem_cons.1 hq with rfl | hq
        · exact List.mem_cons_self
        · obtain ⟨a, ha, rfl⟩ := List.mem_map.1 hq
          have ha' := ((hmem a).1 ha).resolve_left fun han => hqn (congrArg some han)
          exact List.mem_cons_of_mem _ (List.mem_map_of_mem ha')
  · rcases (hmem a).1 ha with rfl | ha
    · exact hfresh
    · exact h.fresh a ha

/-- **A node is unlinked** behind `l₁`, whatever its own word has become. -/
theorem unlink {l₁ l₂ : List ℕ} {c : ℕ} {w : Word τ} {t : τ} (h : Listed m (l₁ ++ c :: l₂))
    (hlast : last none l₁ = p) :
    Listed ((m.write (some c) w).write p ⟨m.ptr (some c), false, t⟩) (l₁ ++ l₂) := by
  subst hlast
  have hsub : (l₁ ++ l₂).Sublist (l₁ ++ c :: l₂) :=
    (List.sublist_cons_self c l₂).append_left l₁
  have hc : c ∉ l₁ ++ l₂ := (List.nodup_middle.1 h.nodup).notMem
  have hother (q : Option ℕ) (hq : q ∈ none :: (l₁ ++ l₂).map some) : q ≠ some c := by
    rintro rfl
    exact hc (mem_of_place hq)
  refine ⟨?_, h.sorted.sublist hsub, fun q hq => ?_, fun a ha => h.fresh a (hsub.subset ha)⟩
  · have hnext : m.ptr (some c) = l₂.head? := h.chain.drop.2.next_eq
    rw [Memory.ptr_write, hnext]
    refine (h.chain.unlink h.nodup_places).congr fun q hq => ?_
    rcases eq_or_ne q (last none l₁) with rfl | hlast
    · rw [Function.update_self, Function.update_self]
    · rw [Function.update_of_ne hlast, Function.update_of_ne hlast, Memory.ptr,
        Memory.word_write_of_ne (hother q hq), Memory.ptr]
  · rcases eq_or_ne q (last none l₁) with rfl | hlast
    · rw [Memory.word_write_self]
    · rw [Memory.word_write_of_ne hlast, Memory.word_write_of_ne (hother q hq)]
      exact h.unmarked q ((hsub.map some).cons_cons none |>.subset hq)

end Listed

/-- The links of the nodes have changed to make the list `nodes'`. -/
structure Relinked (m m' : Memory τ) (nodes' : List ℕ) : Prop where
  listed : Listed m' nodes'
  key : m'.key = m.key
  value : m'.value = m.value

/-- The list `nodes'` has the node `n` more, with its key and value. -/
structure Added (m m' : Memory τ) (nodes nodes' : List ℕ) (n k v : ℕ) : Prop where
  listed : Listed m' nodes'
  mem : ∀ a, a ∈ nodes' ↔ a ∈ nodes ∨ a = n
  key : ∀ a ∈ nodes, m'.key a = m.key a
  value : ∀ a ∈ nodes, m'.value a = m.value a
  key_self : m'.key n = k
  value_self : m'.value n = v

/-- The nodes of another key are the same. -/
theorem Added.exists_iff {m m' : Memory τ} {nodes nodes' : List ℕ} {n k v k' w : ℕ}
    (h : Added m m' nodes nodes' n k v) (hne : k ≠ k') :
    (∃ a ∈ nodes, m.key a = k' ∧ m.value a = w) ↔
      ∃ a ∈ nodes', m'.key a = k' ∧ m'.value a = w := by
  constructor
  · rintro ⟨a, ha, hkey, hvalue⟩
    exact ⟨a, (h.mem a).2 (Or.inl ha), (h.key a ha).trans hkey, (h.value a ha).trans hvalue⟩
  · rintro ⟨a, ha, hkey, hvalue⟩
    rcases (h.mem a).1 ha with ha | rfl
    · exact ⟨a, ha, (h.key a ha).symm.trans hkey, (h.value a ha).symm.trans hvalue⟩
    · exact absurd (h.key_self.symm.trans hkey) hne

/-! ## `find` -/

/-- A frame of `find` before its next node, with the nodes `l` to come. -/
structure Walking (m : Memory τ) (f : Frame τ) (l : List ℕ) : Prop where
  pc : f.pc = .next
  pcurr : f.pcurr = m.word f.prev
  chain : Chain m.ptr f.prev l
  unmarked : ∀ q ∈ f.prev :: l.map some, (m.word q).mark = false

/-- Where a `find` from `p` has stopped without the key: behind `l₁`. -/
structure Stopped (m : Memory τ) (f f' : Frame τ) (p : Option ℕ) (l₁ l₂ : List ℕ) : Prop where
  call : f'.call = f.call
  key : f'.key = f.key
  prev : f'.prev = last p l₁
  pcurr : f'.pcurr = m.word f'.prev
  below : ∀ a ∈ l₁, m.key a < f.key
  above : ∀ b, l₂.head? = some b → f.key < m.key b

/-- Where a `find` from `p` has stopped with the key: at `c`, behind `l₁`. -/
structure Found (m : Memory τ) (f f' : Frame τ) (p : Option ℕ) (l₁ : List ℕ) (c : ℕ) : Prop where
  call : f'.call = f.call
  prev : f'.prev = last p l₁
  pcurr : f'.pcurr = m.word f'.prev
  cnext : f'.cnext = m.word (some c)
  key : m.key c = f.key

/-- The nodes behind the place where `find` has stopped. -/
theorem Stopped.above_of_mem {m : Memory τ} {f f' : Frame τ} {p : Option ℕ} {l₁ l₂ : List ℕ} {b : ℕ}
    (hstop : Stopped m f f' p l₁ l₂) (hsorted : l₂.Pairwise fun a b => m.key a < m.key b)
    (hb : b ∈ l₂) : f.key < m.key b := by
  rcases l₂ with - | ⟨c, l₂⟩
  · exact absurd hb List.not_mem_nil
  · have hc := hstop.above c rfl
    rcases List.mem_cons.1 hb with rfl | hb
    · exact hc
    · exact hc.trans (List.rel_of_pairwise_cons hsorted hb)

theorem Stopped.key_ne {m : Memory τ} {f f' : Frame τ} {p : Option ℕ} {l₁ l₂ : List ℕ} {b : ℕ}
    (hstop : Stopped m f f' p l₁ l₂)
    (h : Listed m (l₁ ++ l₂)) (hb : b ∈ l₁ ++ l₂) : m.key b ≠ f.key := by
  rcases List.mem_append.1 hb with hb | hb
  · exact (hstop.below b hb).ne
  · exact (hstop.above_of_mem (List.pairwise_append.1 h.sorted).2.1 hb).ne'

/-- The frame at the place it starts from. -/
def Frame.entering (f : Frame τ) (m : Memory τ) : Frame τ :=
  { f with prev := f.head, pcurr := m.word f.head, pc := .next }

/-- The frame with the node `c` read, before its check. -/
def Frame.reading (f : Frame τ) (m : Memory τ) (c : ℕ) : Frame τ :=
  { f with cnext := m.word (some c), pc := .check c }

/-- The frame behind the node `c`. -/
def Frame.behind (f : Frame τ) (m : Memory τ) (c : ℕ) : Frame τ :=
  ⟨f.call, f.head, f.key, some c, m.word (some c), m.word (some c), .next⟩

section Find

variable [DecidableEq τ] [Zero τ] [One τ] [Add τ] {m m' : Memory τ} {f : Frame τ} {l nodes : List ℕ}
  {p : Option ℕ} {k : ℕ} {x : Memory τ × Result}

/-- The call goes on to return `x`, or has returned it. -/
def Resumes (m : Memory τ) (x : Memory τ × Result) : Outcome τ → Prop
  | .running f => Returns (fun fuel => f.run fuel m) x
  | .done r => (m, r) = x

theorem returns_of_step {o : Outcome τ} {ev : Option Event} (h : f.step m = ⟨m', o, ev⟩)
    (ho : Resumes m' x o) : Returns (fun fuel => f.run fuel m) x := by
  rcases o with f' | r
  · refine ho.succ fun fuel => ?_
    rw [Frame.run, h]
  · obtain rfl : (m', r) = x := ho
    refine (Returns.const _).succ fun fuel => ?_
    rw [Frame.run, h]

theorem Walking.step_next {c : ℕ} (hw : Walking m f (c :: l)) :
    f.step m = ⟨m, .running (f.reading m c), none⟩ := by
  have hptr : f.pcurr.ptr = some c := by
    rw [hw.pcurr]
    exact hw.chain.1
  simp only [Frame.step, hw.pc, hptr, Frame.reading]

/-- The place before the current node has not changed, and that node has
no mark. -/
theorem Walking.step_check {c : ℕ} (hw : Walking m f (c :: l)) :
    (f.reading m c).step m =
      if f.key ≤ m.key c then
        ⟨m, if m.key c = f.key then (f.reading m c).found c else (f.reading m c).notFound, none⟩
      else ⟨m, .running (f.behind m c), none⟩ := by
  have hprev : m.word f.prev = ⟨some c, false, f.pcurr.tag⟩ := by
    rw [hw.pcurr, ← show (m.word f.prev).ptr = some c from hw.chain.1,
      ← hw.unmarked f.prev List.mem_cons_self]
  have hmark : (m.word (some c)).mark = false := hw.unmarked (some c) (by simp)
  simp only [Frame.step, Frame.reading, Frame.behind, hprev, hmark, ne_eq, not_true_eq_false,
    if_false, Bool.false_eq_true]
  rfl

/-- **`find`** stops at the first key that is not below its own. -/
theorem Walking.returns (hw : Walking m f l) :
    (∃ l₁ l₂ f', l = l₁ ++ l₂ ∧ Stopped m f f' f.prev l₁ l₂ ∧
      ∀ x, Resumes m x f'.notFound → Returns (fun fuel => f.run fuel m) x) ∨
    ∃ l₁ c l₂ f', l = l₁ ++ c :: l₂ ∧ Found m f f' f.prev l₁ c ∧
      ∀ x, Resumes m x (f'.found c) → Returns (fun fuel => f.run fuel m) x := by
  induction l generalizing f with
  | nil =>
    have hptr : f.pcurr.ptr = none := by
      rw [hw.pcurr]
      exact hw.chain
    have hstep : f.step m = ⟨m, f.notFound, none⟩ := by simp only [Frame.step, hw.pc, hptr]
    refine Or.inl ⟨[], [], f, rfl, ⟨rfl, rfl, rfl, hw.pcurr, ?_, ?_⟩, fun x => returns_of_step hstep⟩
    · exact fun a ha => absurd ha List.not_mem_nil
    · exact fun b hb => nomatch hb
  | cons c l ih =>
    have hcheck := hw.step_check
    split_ifs at hcheck with hle hkey
    · refine Or.inr ⟨[], c, l, f.reading m c, rfl, ⟨rfl, rfl, hw.pcurr, rfl, hkey⟩, fun x hx => ?_⟩
      exact returns_of_step hw.step_next (returns_of_step hcheck hx)
    · refine Or.inl ⟨[], c :: l, f.reading m c, rfl, ⟨rfl, rfl, rfl, hw.pcurr, ?_, ?_⟩, fun x hx => ?_⟩
      · exact fun a ha => absurd ha List.not_mem_nil
      · intro b hb
        obtain rfl := Option.some.inj hb
        omega
      · exact returns_of_step hw.step_next (returns_of_step hcheck hx)
    · -- the walk goes on behind `c`
      have hw' : Walking m (f.behind m c) l :=
        ⟨rfl, rfl, hw.chain.2, fun q hq => hw.unmarked q (List.mem_cons_of_mem _ hq)⟩
      rcases ih hw' with ⟨l₁, l₂, f', rfl, hstop, hret⟩ | ⟨l₁, d, l₂, f', rfl, hfound, hret⟩
      · refine Or.inl ⟨c :: l₁, l₂, f', rfl, { hstop with below := fun a ha => ?_ }, fun x hx => ?_⟩
        · rcases List.mem_cons.1 ha with rfl | ha
          · omega
          · exact hstop.below a ha
        · exact returns_of_step hw.step_next (returns_of_step hcheck (hret x hx))
      · refine Or.inr ⟨c :: l₁, d, l₂, f', rfl, { hfound with }, fun x hx => ?_⟩
        exact returns_of_step hw.step_next (returns_of_step hcheck (hret x hx))

/-- **`find` from a place of the list** stops where the key is, or where
it is missing. -/
theorem Listed.returns_find (h : Listed m nodes) (hp : Starts m nodes f.key f.head)
    (hpc : f.pc = .start) :
    (∃ l₁ l₂ f', nodes = l₁ ++ l₂ ∧ Stopped m f f' none l₁ l₂ ∧
      ∀ x, Resumes m x f'.notFound → Returns (fun fuel => f.run fuel m) x) ∨
    ∃ l₁ c l₂ f', nodes = l₁ ++ c :: l₂ ∧ Found m f f' none l₁ c ∧
      ∀ x, Resumes m x (f'.found c) → Returns (fun fuel => f.run fuel m) x := by
  obtain ⟨l₀, l, rfl, hlast, hchain, hbelow⟩ := h.exists_append hp
  have hstep : f.step m = ⟨m, .running (f.entering m), none⟩ := by
    simp only [Frame.step, hpc, Frame.entering]
  have hw : Walking m (f.entering m) l := by
    refine ⟨rfl, rfl, hchain, fun q hq => h.unmarked q ?_⟩
    rw [List.map_append]
    rcases List.mem_cons.1 hq with rfl | hq
    · exact List.mem_append_left (l.map some) (hlast ▸ last_mem)
    · exact List.mem_cons_of_mem _ (List.mem_append_right _ hq)
  rcases hw.returns with ⟨l₁, l₂, f', rfl, hstop, hret⟩ | ⟨l₁, c, l₂, f', rfl, hfound, hret⟩
  · refine Or.inl ⟨l₀ ++ l₁, l₂, f', (List.append_assoc l₀ l₁ l₂).symm,
      { hstop with prev := ?_, below := fun a ha => ?_ }, fun x hx => ?_⟩
    · rw [last_append, hlast]
      exact hstop.prev
    · rcases List.mem_append.1 ha with ha | ha
      · exact hbelow a ha
      · exact hstop.below a ha
    · exact returns_of_step hstep (hret x hx)
  · refine Or.inr ⟨l₀ ++ l₁, c, l₂, f', (List.append_assoc l₀ l₁ (c :: l₂)).symm,
      { hfound with prev := ?_ }, fun x hx => ?_⟩
    · rw [last_append, hlast]
      exact hfound.prev
    · exact returns_of_step hstep (hret x hx)

/-- **`find` of a key that is there** stops at its node. -/
theorem Listed.returns_found (h : Listed m nodes) (hp : Starts m nodes f.key f.head)
    (hpc : f.pc = .start) {a : ℕ} (ha : a ∈ nodes) (hk : m.key a = f.key) :
    ∃ l₁ l₂ f', nodes = l₁ ++ a :: l₂ ∧ Found m f f' none l₁ a ∧
      ∀ x, Resumes m x (f'.found a) → Returns (fun fuel => f.run fuel m) x := by
  rcases h.returns_find hp hpc with ⟨l₁, l₂, f', rfl, hstop, -⟩ | ⟨l₁, c, l₂, f', rfl, hfound, hret⟩
  · exact absurd hk (hstop.key_ne h ha)
  · obtain rfl : c = a := h.eq_of_key (by simp) ha (hfound.key.trans hk.symm)
    exact ⟨l₁, l₂, f', rfl, hfound, hret⟩

/-- **`find` of a key that is not** stops where it would be. -/
theorem Listed.returns_notFound (h : Listed m nodes) (hp : Starts m nodes f.key f.head)
    (hpc : f.pc = .start) (hk : ∀ a ∈ nodes, m.key a ≠ f.key) :
    ∃ l₁ l₂ f', nodes = l₁ ++ l₂ ∧ Stopped m f f' none l₁ l₂ ∧
      ∀ x, Resumes m x f'.notFound → Returns (fun fuel => f.run fuel m) x := by
  refine (h.returns_find hp hpc).resolve_right ?_
  rintro ⟨l₁, c, l₂, f', rfl, hfound, -⟩
  exact hk c (by simp) hfound.key

/-- **`Search`** of a key that is there. -/
theorem Listed.returns_search (h : Listed m nodes) (hp : Starts m nodes k p) {a : ℕ}
    (ha : a ∈ nodes) (hk : m.key a = k) :
    Returns (m.search p k) (m, ⟨true, some a, some (m.value a)⟩) := by
  obtain ⟨_, _, f', -, hfound, hret⟩ := h.returns_found (f := .search p k) hp rfl ha hk
  have hmark := h.mark_eq_false ha
  refine hret _ ?_
  simp only [Frame.found, hfound.call, Frame.search, Resumes]
  exact returns_of_step rfl (by simp only [hmark]; rfl)

/-- **`Search`** of a key that is not. -/
theorem Listed.returns_search_of_absent (h : Listed m nodes) (hp : Starts m nodes k p)
    (hk : ∀ a ∈ nodes, m.key a ≠ k) : Returns (m.search p k) (m, ⟨false, none, none⟩) := by
  obtain ⟨_, _, f', -, hstop, hret⟩ := h.returns_notFound (f := .search p k) hp rfl hk
  refine hret _ ?_
  simp only [Frame.notFound, hstop.call, Frame.search, Resumes]

/-- The two accesses of `Insert` behind the place where `find` has
stopped. -/
theorem returns_link {n : ℕ} (hcall : f.call = .insert n) (hpcurr : f.pcurr = m.word f.prev)
    (hmark : (m.word f.prev).mark = false) (hprev : f.prev ≠ some n) :
    Resumes m ((m.write (some n) ⟨m.ptr f.prev, false, 0⟩).write f.prev
      ⟨some n, false, (m.word f.prev).tag + 1⟩, ⟨true, none, none⟩) f.notFound := by
  simp only [Frame.notFound, hcall, Resumes]
  have hptr : f.pcurr.ptr = m.ptr f.prev := by rw [hpcurr, Memory.ptr]
  have hprepare : (f.goto .prepare).step m =
      ⟨m.write (some n) ⟨m.ptr f.prev, false, 0⟩, .running (f.goto .link), none⟩ := by
    simp only [Frame.step, Frame.goto, hcall, hptr]
  have hword : (m.write (some n) ⟨m.ptr f.prev, false, 0⟩).word f.prev =
      ⟨m.ptr f.prev, false, (m.word f.prev).tag⟩ := by
    rw [Memory.word_write_of_ne hprev, ← hmark, Memory.ptr]
  have htag : f.pcurr.tag = (m.word f.prev).tag := by rw [hpcurr]
  have hlink : (f.goto .link).step (m.write (some n) ⟨m.ptr f.prev, false, 0⟩) =
      ⟨(m.write (some n) ⟨m.ptr f.prev, false, 0⟩).write f.prev
        ⟨some n, false, (m.word f.prev).tag + 1⟩, .done ⟨true, none, none⟩,
        some ⟨.inserted, n, f.key⟩⟩ := by
    simp only [Frame.step, Frame.goto, hcall, Memory.cas, hptr, htag, hword, if_true]
  exact returns_of_step hprepare (returns_of_step hlink rfl)

/-- **`Insert`** of a key that is there reports its node. -/
theorem Listed.returns_insertNode_of_mem (h : Listed m nodes) {n : ℕ}
    (hp : Starts m nodes (m.key n) p) {a : ℕ} (ha : a ∈ nodes) (hk : m.key a = m.key n) :
    Returns (m.insertNode p n) (m, ⟨false, some a, none⟩) := by
  obtain ⟨_, _, f', -, hfound, hret⟩ := h.returns_found (f := .insert m p n) hp rfl ha hk
  refine hret _ ?_
  simp only [Frame.found, hfound.call, Frame.insert, Resumes]

/-- **`Insert`** of a key that is not links the node in. -/
theorem Listed.returns_insertNode (h : Listed m nodes) {n : ℕ} (hn : n ∉ nodes)
    (hfresh : n < m.fresh) (hp : Starts m nodes (m.key n) p)
    (hk : ∀ a ∈ nodes, m.key a ≠ m.key n) :
    ∃ m' nodes', Returns (m.insertNode p n) (m', ⟨true, none, none⟩) ∧ Relinked m m' nodes' ∧
      ∀ a, a ∈ nodes' ↔ a ∈ nodes ∨ a = n := by
  obtain ⟨l₁, l₂, f', rfl, hstop, hret⟩ := h.returns_notFound (f := .insert m p n) hp rfl hk
  have hplace : f'.prev ∈ none :: (l₁ ++ l₂).map some := by
    rw [hstop.prev, List.map_append]
    exact List.mem_append_left (l₂.map some) last_mem
  have hprev : f'.prev ≠ some n := fun hprev => hn (mem_of_place (hprev ▸ hplace))
  refine ⟨_, l₁ ++ n :: l₂, hret _ (returns_link hstop.call hstop.pcurr (h.unmarked _ hplace) hprev),
    ⟨?_, rfl, rfl⟩, fun a => ?_⟩
  · refine h.link hn hfresh hstop.prev.symm hstop.below fun b hb => ?_
    exact hstop.above_of_mem (List.pairwise_append.1 h.sorted).2.1 hb
  · simp only [List.mem_append, List.mem_cons]
    tauto

/-- `Insert` of a new node, where its key is there. -/
theorem Listed.returns_insert_of_mem (h : Listed m nodes) (hp : Starts m nodes k p) {a : ℕ}
    (ha : a ∈ nodes) (hk : m.key a = k) (v : ℕ) :
    Returns (m.insert p k v) (m.newNode k v, ⟨false, some a, none⟩) := by
  refine (h.newNode v).returns_insertNode_of_mem (h.starts_newNode hp v) ha ?_
  rw [h.key_newNode ha, hk, Memory.key_newNode_self]

/-- `Insert` of a new node, where its key is not there. -/
theorem Listed.returns_insert (h : Listed m nodes) (hp : Starts m nodes k p)
    (hk : ∀ a ∈ nodes, m.key a ≠ k) (v : ℕ) :
    ∃ m' nodes', Returns (m.insert p k v) (m', ⟨true, none, none⟩) ∧
      Added m m' nodes nodes' m.fresh k v := by
  have hkeys (a : ℕ) (ha : a ∈ nodes) :
      (m.newNode k v).key a ≠ (m.newNode k v).key m.fresh := by
    rw [h.key_newNode ha, Memory.key_newNode_self]
    exact hk a ha
  obtain ⟨m', nodes', hret, hlinks, hmem⟩ := (h.newNode v).returns_insertNode h.fresh_not_mem
    (Nat.lt_succ_self _) (h.starts_newNode hp v) hkeys
  refine ⟨m', nodes', hret, hlinks.listed, hmem, fun a ha => ?_, fun a ha => ?_, ?_, ?_⟩
  · rw [hlinks.key, h.key_newNode ha]
  · rw [hlinks.value, h.value_newNode ha]
  · rw [hlinks.key, Memory.key_newNode_self]
  · rw [hlinks.value]
    exact Function.update_self ..

/-- The two swaps of `Remove` at the node where `find` has stopped. -/
theorem returns_unlink {c : ℕ} (hcall : f.call = .remove) (hpcurr : f.pcurr = m.word f.prev)
    (hcnext : f.cnext = m.word (some c)) (hmark : (m.word (some c)).mark = false)
    (hword : m.word f.prev = ⟨some c, false, (m.word f.prev).tag⟩) (hprev : f.prev ≠ some c) :
    Resumes m ((m.write (some c) ⟨m.ptr (some c), true, (m.word (some c)).tag + 1⟩).write f.prev
      ⟨m.ptr (some c), false, (m.word f.prev).tag + 1⟩, ⟨true, none, none⟩) (f.found c) := by
  simp only [Frame.found, hcall, Resumes]
  have hold : m.word (some c) = { m.word (some c) with mark := false } := by rw [← hmark]
  have hstepMark : (f.goto (.mark c)).step m =
      ⟨m.write (some c) ⟨m.ptr (some c), true, (m.word (some c)).tag + 1⟩,
        .running (f.goto (.detach c)), some ⟨.removed, c, f.key⟩⟩ := by
    simp only [Frame.step, Frame.goto, Memory.cas, hcnext, if_pos hold, Memory.ptr]
  have hstepDetach : (f.goto (.detach c)).step
        (m.write (some c) ⟨m.ptr (some c), true, (m.word (some c)).tag + 1⟩) =
      ⟨(m.write (some c) ⟨m.ptr (some c), true, (m.word (some c)).tag + 1⟩).write f.prev
        ⟨m.ptr (some c), false, (m.word f.prev).tag + 1⟩, .done ⟨true, none, none⟩, none⟩ := by
    simp only [Frame.step, Frame.goto, Memory.cas, Memory.word_write_of_ne hprev, hpcurr, hcnext,
      if_pos hword, Memory.ptr]
  exact returns_of_step hstepMark (returns_of_step hstepDetach rfl)

/-- **`Remove`** of a key that is there unlinks its node. -/
theorem Listed.returns_remove (h : Listed m nodes) (hp : Starts m nodes k p) {a : ℕ}
    (ha : a ∈ nodes) (hk : m.key a = k) :
    ∃ m' nodes', Returns (m.remove p k) (m', ⟨true, none, none⟩) ∧ Relinked m m' nodes' ∧
      ∀ b, b ∈ nodes' ↔ b ∈ nodes ∧ b ≠ a := by
  obtain ⟨l₁, l₂, f', rfl, hfound, hret⟩ := h.returns_found (f := .remove p k) hp rfl ha hk
  have hne : a ∉ l₁ ++ l₂ := (List.nodup_middle.1 h.nodup).notMem
  have hplace : f'.prev ∈ none :: l₁.map some := hfound.prev ▸ last_mem
  have hprev : f'.prev ≠ some a := fun hprev =>
    hne (List.mem_append_left _ (mem_of_place (hprev ▸ hplace)))
  have hmark := h.mark_eq_false ha
  have hmark' : (m.word f'.prev).mark = false := by
    refine h.unmarked _ ?_
    rw [List.map_append]
    exact List.mem_append_left ((a :: l₂).map some) hplace
  have hptr : (m.word f'.prev).ptr = some a := by
    rw [hfound.prev]
    exact h.chain.drop.1
  have hword : m.word f'.prev = ⟨some a, false, (m.word f'.prev).tag⟩ := by rw [← hptr, ← hmark']
  refine ⟨_, l₁ ++ l₂, hret _ (returns_unlink hfound.call hfound.pcurr hfound.cnext hmark hword hprev),
    ⟨h.unlink hfound.prev.symm, rfl, rfl⟩, fun b => ?_⟩
  have hb (hb : b ∈ l₁ ++ l₂) : b ≠ a := ne_of_mem_of_not_mem hb hne
  simp only [List.mem_append, List.mem_cons] at hb ⊢
  tauto

/-- **`Remove`** of a key that is not. -/
theorem Listed.returns_remove_of_absent (h : Listed m nodes) (hp : Starts m nodes k p)
    (hk : ∀ a ∈ nodes, m.key a ≠ k) : Returns (m.remove p k) (m, ⟨false, none, none⟩) := by
  obtain ⟨_, _, f', -, hstop, hret⟩ := h.returns_notFound (f := .remove p k) hp rfl hk
  refine hret _ ?_
  simp only [Frame.notFound, hstop.call, Frame.remove, Resumes]

end Find

end Concurrent

end CppEtudes
