import CppEtudes.Calltree.Model.Mind
import CppEtudes.Common.Preorder

/-!
# `mind` — the tree of an outline

After every line the nodes made so far are a tree whose preorder is the
order they were made in, and the stack is its spine. A line at level `L`
is grafted below the node of the spine at depth `L - 1`; where the spine
has no such node the stack runs empty.
-/

namespace CppEtudes

namespace Calltree

open Rose

namespace Mind

/-- The references to the children of a node. -/
def kids (m : Mind) (i : ℕ) : List ℕ := (m.heap[i]?.map MindNode.children).getD []

/-- **The nodes are a tree**, in preorder by their numbers and with the
levels as depths; its spine is on the stack. -/
structure Describes (m : Mind) (t : Rose ℕ) : Prop where
  order : t.preorder 0 = (m.heap.map MindNode.level).zipIdx
  kids : t.Agrees m.kids
  stack : m.stk = t.spine.reverse

/-- The levels and contents of the nodes. -/
def labels (m : Mind) : List (ℕ × Text) := m.heap.map fun n => (n.level, n.content)

section Step

variable {m : Mind} {t : Rose ℕ} {ln : Text}

/-- On the stack the levels are the depths of the spine. -/
theorem Describes.levelOf (h : Describes m t) {k i : ℕ} (hk : t.spine[k]? = some i) :
    m.levelOf i = k := by
  have hmem := mem_preorder_of_spine t (d := 0) hk
  rw [h.order, Nat.zero_add, List.mem_zipIdx_iff_getElem?, List.getElem?_map] at hmem
  rw [Mind.levelOf, hmem]
  rfl

theorem Describes.vals (h : Describes m t) : t.vals = List.range m.heap.length := by
  rw [Rose.vals, h.order, List.zipIdx_map_snd]
  simp [List.range_eq_range']

end Step

/-- A stack with the levels one below the other is popped down to the
level before, or to nothing. -/
theorem dropWhile_reverse (f : ℕ → ℕ) (l : ℕ) (s : List ℕ)
    (hs : ∀ k i, s[k]? = some i → f i = k) :
    s.reverse.dropWhile (fun i => f i + 1 != l) = if l ≤ s.length then (s.take l).reverse else [] := by
  induction s using List.reverseRecOn with
  | nil => simp
  | append_singleton s x ih =>
    have hx : f x = s.length := hs _ x (by simp)
    have ih := ih fun k i hk => hs k i (by
      rwa [List.getElem?_append_left (List.getElem?_eq_some_iff.1 hk).1])
    rw [List.reverse_append, List.reverse_singleton, List.singleton_append, List.dropWhile_cons, hx,
      List.length_append, List.length_singleton]
    by_cases hl : s.length + 1 = l
    · subst hl
      rw [if_neg (by simp), if_pos (Nat.le_refl _), List.take_of_length_le (by simp)]
      simp
    · rw [if_pos (by simpa using hl), ih]
      by_cases hle : l ≤ s.length
      · rw [if_pos hle, if_pos (by omega), List.take_append_of_le_length hle]
      · rw [if_neg hle, if_neg (by omega)]

section Step

variable {m : Mind} {t : Rose ℕ} {ln : Text}

theorem Describes.dropWhile (h : Describes m t) (l : ℕ) :
    m.stk.dropWhile (fun i => m.levelOf i + 1 != l) =
      if l ≤ t.spine.length then (t.spine.take l).reverse else [] := by
  rw [h.stack]
  exact dropWhile_reverse m.levelOf l t.spine fun k i hk => h.levelOf hk

/-- **A line that fits nowhere**: without dashes, or more than one level
below the line before. -/
theorem Describes.addLine_eq_none (h : Describes m t)
    (hln : dashes ln = 0 ∨ t.spine.length < dashes ln) : m.addLine ln = none := by
  have hdrop : m.stk.dropWhile (fun i => m.levelOf i + 1 != dashes ln) = [] := by
    rw [h.dropWhile]
    rcases hln with hln | hln
    · rw [hln, if_pos (Nat.zero_le _)]
      rfl
    · rw [if_neg (by omega)]
  rw [addLine, hdrop]

/-- A child more changes nothing else of the nodes. -/
theorem map_modify_children {β : Type} {g : MindNode → β}
    (hg : ∀ n cs, g { n with children := cs } = g n) (heap : List MindNode) (i curr : ℕ) :
    (heap.modify i fun n => { n with children := n.children ++ [curr] }).map g = heap.map g := by
  refine List.ext_getElem? fun j => ?_
  grind

/-- The children after a line is added below `top`. -/
theorem kids_add {top : ℕ} (htop : top < m.heap.length) (n : MindNode) (stk : List ℕ) (i : ℕ) :
    (Mind.mk (m.heap.modify top (fun n => { n with children := n.children ++ [m.heap.length] }) ++
        [n]) stk).kids i =
      if i = m.heap.length then n.children
      else if i = top then m.kids i ++ [m.heap.length] else m.kids i := by
  simp only [Mind.kids]
  grind

/-- **A line that fits** is grafted onto the tree. -/
theorem Describes.addLine_eq_some (h : Describes m t) (ln : Text) (hpos : 0 < dashes ln)
    (hle : dashes ln ≤ t.spine.length) : ∃ m', m.addLine ln = some m' ∧
      Describes m' (t.graft m.heap.length (dashes ln - 1)) ∧
      m'.labels = m.labels ++ [(dashes ln, mindContent ln)] := by
  obtain ⟨k, hk⟩ : ∃ k, dashes ln = k + 1 := ⟨dashes ln - 1, by omega⟩
  rw [hk] at hle
  have hlt : k < t.spine.length := by omega
  obtain ⟨top, htop⟩ : ∃ top, t.spine[k]? = some top := ⟨_, List.getElem?_eq_getElem hlt⟩
  have hdrop : m.stk.dropWhile (fun i => m.levelOf i + 1 != dashes ln) =
      top :: (t.spine.take k).reverse := by
    rw [h.dropWhile, hk, if_pos hle, List.take_add_one, htop]
    simp
  have hrange := h.vals
  have htoplt : top < m.heap.length := by
    have hmem := mem_vals_of_spine htop
    rwa [hrange, List.mem_range] at hmem
  refine ⟨_, by rw [addLine, hdrop], ⟨?_, ?_, ?_⟩, ?_⟩
  · rw [hk, Nat.add_sub_cancel, preorder_graft hlt, h.order, List.map_append,
      map_modify_children fun _ _ => rfl, List.zipIdx_append]
    simp
  · rw [hk, Nat.add_sub_cancel]
    refine h.kids.graft ?_ ?_ htop ?_ ?_ fun i hi hitop => ?_
    · rw [hrange]
      exact List.nodup_range
    · rw [hrange]
      simp
    · rw [kids_add htoplt, if_pos rfl]
    · rw [kids_add htoplt, if_neg (by omega), if_pos rfl]
    · rw [kids_add htoplt, if_neg hi, if_neg hitop]
  · rw [hk, Nat.add_sub_cancel, spine_graft hlt, List.take_add_one, htop]
    simp
  · simp only [labels, List.map_append]
    rw [map_modify_children fun _ _ => rfl]
    rfl

end Step

/-! ## All lines -/

/-- The level of the line before, `prev` for the first one. -/
def levelBefore (prev : ℕ) (before : List Text) : ℕ := (before.getLast?.map dashes).getD prev

/-- **Some line fits nowhere**: it has no dash, or more than one beyond the
line before it. -/
def IllFormed (prev : ℕ) (lines : List Text) : Prop :=
  ∃ before ln after, lines = before ++ ln :: after ∧
    (dashes ln = 0 ∨ levelBefore prev before + 1 < dashes ln)

theorem illFormed_cons {prev : ℕ} {ln : Text} {lines : List Text} :
    IllFormed prev (ln :: lines) ↔
      (dashes ln = 0 ∨ prev + 1 < dashes ln) ∨ IllFormed (dashes ln) lines := by
  have hlevel : ∀ before, levelBefore prev (ln :: before) = levelBefore (dashes ln) before := by
    intro before
    cases before with
    | nil => rfl
    | cons b before =>
      simp only [levelBefore, List.getLast?_cons_cons]
      rw [List.getLast?_eq_some_getLast (List.cons_ne_nil b before)]
      rfl
  constructor
  · rintro ⟨before, l, after, heq, hl⟩
    cases before with
    | nil =>
      obtain ⟨rfl, rfl⟩ := List.cons.inj heq
      exact .inl hl
    | cons b before =>
      obtain ⟨rfl, rfl⟩ := List.cons.inj heq
      rw [hlevel] at hl
      exact .inr ⟨before, l, after, rfl, hl⟩
  · rintro (hl | ⟨before, l, after, rfl, hl⟩)
    · exact ⟨[], ln, lines, rfl, hl⟩
    · exact ⟨ln :: before, l, after, rfl, by rwa [hlevel]⟩

/-- **The loop over the lines**: it dies at a line that fits nowhere, and
otherwise the nodes are again a tree. -/
theorem Describes.foldlM (lines : List Text) : ∀ {m : Mind} {t : Rose ℕ} {prev : ℕ},
    Describes m t → t.spine.length = prev + 1 →
    (IllFormed prev lines → lines.foldlM addLine m = none) ∧
    (¬ IllFormed prev lines → ∃ m' t', lines.foldlM addLine m = some m' ∧ Describes m' t' ∧
      m'.labels = m.labels ++ lines.map fun ln => (dashes ln, mindContent ln)) := by
  induction lines with
  | nil =>
    intro m t prev h _
    refine ⟨?_, fun _ => ⟨m, t, rfl, h, (List.append_nil _).symm⟩⟩
    rintro ⟨before, ln, after, heq, -⟩
    simp at heq
  | cons ln lines ih =>
    intro m t prev h hprev
    rw [List.foldlM_cons, illFormed_cons]
    by_cases hln : dashes ln = 0 ∨ prev + 1 < dashes ln
    · rw [h.addLine_eq_none (by rwa [hprev])]
      exact ⟨fun _ => rfl, fun hno => absurd (.inl hln) hno⟩
    · obtain ⟨m', hm', h', hlabels⟩ := h.addLine_eq_some ln (by omega) (by omega)
      have hspine : (t.graft m.heap.length (dashes ln - 1)).spine.length = dashes ln + 1 := by
        rw [spine_graft (by omega), List.length_append, List.length_take, List.length_singleton]
        omega
      obtain ⟨hill, hwell⟩ := ih h' hspine
      rw [hm']
      refine ⟨fun hbad => hill (hbad.resolve_left hln), fun hno => ?_⟩
      obtain ⟨m₂, t₂, hrun, hdesc, hl⟩ := hwell fun hbad => hno (.inr hbad)
      refine ⟨m₂, t₂, hrun, hdesc, ?_⟩
      rw [hl, hlabels, List.append_assoc, List.map_cons]
      rfl

theorem describes_init (title : Text) : Describes ⟨[⟨0, title, []⟩], [0]⟩ (.node 0 []) := by
  refine ⟨rfl, agrees_node.2 ⟨rfl, nofun⟩, rfl⟩

/-! ## The tree -/

/-- **The tree that is read off the nodes.** -/
theorem preorder_mindTree {heap : List MindNode} {stk : List ℕ} (t : Rose ℕ) :
    ∀ {n : ℕ}, t.Agrees (Mind.mk heap stk).kids → t.vals.length ≤ n → ∀ d,
      (mindTree heap n t.val).preorder d =
        (t.preorder d).map fun x => (x.1, (heap[x.2]?.map MindNode.content).getD []) := by
  induction t using induct with
  | h v cs ih =>
    intro n h hn d
    rw [vals_node, List.length_cons] at hn
    obtain ⟨n, rfl⟩ : ∃ k, n = k + 1 := ⟨n - 1, by omega⟩
    obtain ⟨hv, hcs⟩ := agrees_node.1 h
    have hkids : (heap[v]?.map MindNode.children).getD [] = cs.map val := hv
    rw [val, mindTree, hkids, preorder_node, preorder_node, List.map_cons, List.map_flatMap,
      List.map_map, List.flatMap_map]
    congr 1
    refine List.flatMap_congr fun c hc => ih c hc (hcs c hc) ?_ _
    have hle := length_vals_le hc
    omega

/-- The levels and contents are the preorder of the tree. -/
theorem Describes.preorder_mindTree {m : Mind} {t : Rose ℕ} (h : Describes m t) :
    (mindTree m.heap m.heap.length t.val).preorder 0 = m.labels := by
  rw [Mind.preorder_mindTree t h.kids (by rw [h.vals, List.length_range]), h.order, labels]
  refine List.ext_getElem? fun j => ?_
  grind

theorem Describes.root {m : Mind} {t : Rose ℕ} (h : Describes m t) : m.stk.getLastD 0 = t.val := by
  obtain ⟨v, cs⟩ := t
  rw [h.stack, spine, List.reverse_cons, List.getLastD_concat]
  rfl

end Mind

/-- The line without its leading dashes and the blanks behind them. -/
def stripped (ln : Text) : Text := (ln.dropWhile (· == '-')).dropWhile isSpace

theorem mindContent_eq_stripped {ln : Text} (h : '\n' ∉ ln) : mindContent ln = stripped ln := by
  refine List.takeWhile_eq_self_iff.2 fun c hc => ?_
  have hmem : c ∈ ln := ((List.dropWhile_sublist _).trans (List.dropWhile_sublist _)).mem hc
  exact bne_iff_ne.2 fun heq => h (heq ▸ hmem)

theorem mind_eq_none (title : Text) {lines : List Text} (h : Mind.IllFormed 0 lines) :
    mind title lines = none := by
  rw [mind, ((Mind.describes_init title).foldlM lines rfl).1 h]
  rfl

/-- The nodes that `mind` returns are a tree, with the title and the lines
as its labels. -/
theorem mind_eq_some (title : Text) {lines : List Text} (h : ¬ Mind.IllFormed 0 lines) :
    ∃ (m : Mind) (t : Rose ℕ), mind title lines = some (m.heap, t.val) ∧ m.Describes t ∧
      m.labels = (0, title) :: lines.map fun ln => (dashes ln, mindContent ln) := by
  obtain ⟨m, t, hrun, hdesc, hlabels⟩ := ((Mind.describes_init title).foldlM lines rfl).2 h
  refine ⟨m, t, ?_, hdesc, hlabels⟩
  rw [mind, hrun, ← hdesc.root]
  rfl

/-- **`mind` builds the tree of an outline.** It dies exactly if some line
has no dash or more than one beyond the line before it, the title being
at level 0. Otherwise it returns the tree with the title and the lines in
preorder, stripped, each at the depth of its dashes, and no other tree is
so. -/
theorem mind_spec (title : Text) (lines : List Text) (h : ∀ ln ∈ lines, '\n' ∉ ln) :
    (mind title lines = none ↔ Mind.IllFormed 0 lines) ∧
    ∀ heap root, mind title lines = some (heap, root) → ∀ t : Rose Text,
      t.preorder 0 = (0, title) :: (lines.map fun ln => (dashes ln, stripped ln)) ↔
        t = mindTree heap heap.length root := by
  by_cases hbad : Mind.IllFormed 0 lines
  · have hnone := mind_eq_none title hbad
    refine ⟨⟨fun _ => hbad, fun _ => hnone⟩, fun heap root hsome => ?_⟩
    rw [hnone] at hsome
    cases hsome
  · obtain ⟨m, t₀, hsome, hdesc, hlabels⟩ := mind_eq_some title hbad
    have hcontents : (lines.map fun ln => (dashes ln, mindContent ln)) =
        lines.map fun ln => (dashes ln, stripped ln) :=
      List.map_congr_left fun ln hln => by rw [mindContent_eq_stripped (h ln hln)]
    refine ⟨⟨fun hnone => ?_, fun hill => absurd hill hbad⟩, fun heap root hmind t => ?_⟩
    · rw [hsome] at hnone
      cases hnone
    rw [hsome] at hmind
    obtain ⟨rfl, rfl⟩ := Prod.mk.inj (Option.some.inj hmind)
    have hpreorder := hdesc.preorder_mindTree
    rw [hlabels, hcontents] at hpreorder
    constructor
    · exact fun ht => preorder_injective (ht.trans hpreorder.symm)
    · rintro rfl
      exact hpreorder

theorem mind_spec_twoLevels :
    mind "t".toList ["- a".toList, "-- b".toList] ≠ none ∧
      ∀ heap root, mind "t".toList ["- a".toList, "-- b".toList] = some (heap, root) →
        mindTree heap heap.length root =
          .node "t".toList [.node "a".toList [.node "b".toList []]] := by
  obtain ⟨-, hsome⟩ := mind_spec "t".toList ["- a".toList, "-- b".toList] (by decide)
  exact ⟨by decide, fun heap root hmind => ((hsome heap root hmind _).1 rfl).symm⟩

end Calltree

end CppEtudes
