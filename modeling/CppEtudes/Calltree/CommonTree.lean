import CppEtudes.Calltree.Loops
import Mathlib.Algebra.Ring.Nat
import Mathlib.Data.List.Chain
import Mathlib.Data.List.Nodup

/-!
# Common subtrees

A subtree that is high enough and met often enough is printed once, in
the `[common]` section, and every place it is met at refers to it by its
index. Formatting the section may meet further common subtrees, so it is
repeated until two formats have as many lines. Below level 1 a node that
qualifies takes one line whether or not it was found before, so that a
format that finds a new one is followed by a longer one
(`length_lt_of_ne`), and the section that is returned has found all it
refers to.
-/

namespace CppEtudes

namespace Calltree

variable {α : Type}

/-! ## What a format consists of -/

section FormatTree

variable {ν ε σ : Type} {prune : ν → σ → Option ℕ × σ} {getEntry : σ → ℕ → ν → Option ℕ → ε}
  {getChild : σ → ℕ → ν → Option (List ν)} {blank : ε → Bool}

/-- The formats of a list of nodes, one after the other. -/
inductive Runs (step : ν → σ → Option (List (Line ε) × σ)) :
    List ν → σ → List (List (Line ε)) → σ → Prop
  | nil (st : σ) : Runs step [] st [] st
  | cons {c : ν} {cs : List ν} {st st₁ st₂ : σ} {b : List (Line ε)} {bs : List (List (Line ε))}
      (h : step c st = some (b, st₁)) (hs : Runs step cs st₁ bs st₂) :
      Runs step (c :: cs) st (b :: bs) st₂

/-- The blocks of the children below each other. -/
def joinBlocks (blank : ε → Bool) : List (List (Line ε)) → List (Line ε)
  | [] => []
  | [b] => Line.elbow b
  | b :: bs => Line.branch blank b ++ joinBlocks blank bs

theorem joinBlocks_cons_cons (b b' : List (Line ε)) (bs : List (List (Line ε))) :
    joinBlocks blank (b :: b' :: bs) = Line.branch blank b ++ joinBlocks blank (b' :: bs) := rfl

theorem runs_of_formatChildren {step : ν → σ → Option (List (Line ε) × σ)} (cs : List ν) :
    ∀ {st st' : σ} {ls : List (Line ε)}, formatChildren blank step cs st = some (ls, st') →
    ∃ bs, Runs step cs st bs st' ∧ ls = joinBlocks blank bs := by
  induction cs with
  | nil =>
    rintro st st' ls ⟨⟩
    exact ⟨[], .nil st, rfl⟩
  | cons c cs ih =>
    intro st st' ls h
    cases cs with
    | nil =>
      simp only [formatChildren, Option.bind_eq_bind, Option.bind_eq_some_iff] at h
      obtain ⟨⟨b, st₁⟩, hb, h⟩ := h
      cases h
      exact ⟨[b], .cons hb (.nil _), rfl⟩
    | cons c' cs =>
      simp only [formatChildren, Option.bind_eq_bind, Option.bind_eq_some_iff] at h
      obtain ⟨⟨b, st₁⟩, hb, ⟨rest, st₂⟩, hrest, h⟩ := h
      obtain ⟨bs, hbs, rfl⟩ := ih hrest
      cases h
      refine ⟨b :: bs, .cons hb hbs, ?_⟩
      cases hbs
      rfl

/-- **A format is the entry of its root above the blocks of its
children.** -/
theorem runs_of_formatTree {fuel level : ℕ} {t : ν} {st st' : σ} {ls : List (Line ε)}
    (h : formatTree prune getEntry getChild blank (fuel + 1) level t st = some (ls, st')) :
    ∃ cs bs, getChild (prune t st).2 level t = some cs ∧
      Runs (formatTree prune getEntry getChild blank fuel (level + 1)) cs (prune t st).2 bs st' ∧
      ls = ⟨[], some (getEntry (prune t st).2 level t (prune t st).1)⟩ :: joinBlocks blank bs := by
  simp only [formatTree, Option.bind_eq_bind, Option.bind_eq_some_iff] at h
  obtain ⟨cs, hcs, ⟨rest, st₁⟩, hrest, h⟩ := h
  obtain ⟨bs, hbs, rfl⟩ := runs_of_formatChildren cs hrest
  cases h
  exact ⟨cs, bs, hcs, hbs, rfl⟩

theorem ne_nil_of_formatTree {fuel level : ℕ} {t : ν} {st st' : σ} {ls : List (Line ε)}
    (h : formatTree prune getEntry getChild blank fuel level t st = some (ls, st')) : ls ≠ [] := by
  cases fuel with
  | zero => cases h
  | succ fuel =>
    obtain ⟨_, _, -, -, rfl⟩ := runs_of_formatTree h
    exact List.cons_ne_nil _ _

/-- Every block is the format of its node. -/
theorem Runs.exists_of_mem {step : ν → σ → Option (List (Line ε) × σ)} {cs : List ν} {st st' : σ}
    {bs : List (List (Line ε))} (h : Runs step cs st bs st') {b : List (Line ε)} (hb : b ∈ bs) :
    ∃ c ∈ cs, ∃ st₁ st₂, step c st₁ = some (b, st₂) := by
  induction h with
  | nil => cases hb
  | cons hstep _ ih =>
    rcases List.mem_cons.1 hb with rfl | hb
    · exact ⟨_, List.mem_cons_self, _, _, hstep⟩
    · obtain ⟨c, hc, hrun⟩ := ih hb
      exact ⟨c, List.mem_cons_of_mem _ hc, hrun⟩

theorem Runs.append_inv {step : ν → σ → Option (List (Line ε) × σ)} {cs : List ν} :
    ∀ {ds : List ν} {st st' : σ} {bs : List (List (Line ε))}, Runs step (cs ++ ds) st bs st' →
    ∃ bs₁ bs₂ st₁, bs = bs₁ ++ bs₂ ∧ Runs step cs st bs₁ st₁ ∧ Runs step ds st₁ bs₂ st' := by
  induction cs with
  | nil =>
    intro ds st st' bs h
    exact ⟨[], bs, st, rfl, .nil st, h⟩
  | cons c cs ih =>
    intro ds st st' bs h
    cases h with
    | cons hb hs =>
      obtain ⟨bs₁, bs₂, st₁, rfl, h₁, h₂⟩ := ih hs
      exact ⟨_ :: bs₁, bs₂, st₁, rfl, .cons hb h₁, h₂⟩

/-! ### The lines of blocks -/

theorem length_branch {b : List (Line ε)} (hb : b ≠ []) : (Line.branch blank b).length = b.length := by
  cases b with
  | nil => exact absurd rfl hb
  | cons l ls =>
    simp only [Line.branch]
    split_ifs with h
    · simp only [Bool.and_eq_true, List.isEmpty_iff] at h
      rw [h.2]
      rfl
    · simp

theorem length_joinBlocks (bs : List (List (Line ε))) (h : ∀ b ∈ bs, b ≠ []) :
    (joinBlocks blank bs).length = (bs.map List.length).sum := by
  induction bs with
  | nil => rfl
  | cons b bs ih =>
    have hb := h b (by simp)
    cases bs with
    | nil =>
      cases b with
      | nil => exact absurd rfl hb
      | cons l ls => simp [joinBlocks, Line.elbow]
    | cons b' bs =>
      rw [joinBlocks_cons_cons, List.length_append, length_branch hb, ih fun c hc => h c (by simp [hc]),
        List.map_cons, List.sum_cons]
      simp

theorem mem_branch {b : List (Line ε)} {l : Line ε} {e : ε} (hl : l ∈ Line.branch blank b)
    (he : l.entry = some e) : ∃ l' ∈ b, l'.entry = some e := by
  cases b with
  | nil =>
    rw [Line.branch, List.mem_singleton] at hl
    rw [hl] at he
    cases he
  | cons first rest =>
    simp only [Line.branch] at hl
    split_ifs at hl
    · rw [List.mem_singleton] at hl
      rw [hl] at he
      cases he
    · rcases List.mem_cons.1 hl with rfl | hl
      · exact ⟨first, by simp, he⟩
      · obtain ⟨l', hl', rfl⟩ := List.mem_map.1 hl
        exact ⟨l', by simp [hl'], he⟩

theorem mem_elbow {b : List (Line ε)} {l : Line ε} {e : ε} (hl : l ∈ Line.elbow b)
    (he : l.entry = some e) : ∃ l' ∈ b, l'.entry = some e := by
  cases b with
  | nil =>
    rw [Line.elbow, List.mem_singleton] at hl
    rw [hl] at he
    cases he
  | cons first rest =>
    rcases List.mem_cons.1 hl with rfl | hl
    · exact ⟨first, by simp, he⟩
    · obtain ⟨l', hl', rfl⟩ := List.mem_map.1 hl
      exact ⟨l', by simp [hl'], he⟩

/-- An entry among the blocks is one of a block. -/
theorem mem_joinBlocks {bs : List (List (Line ε))} {l : Line ε} {e : ε}
    (hl : l ∈ joinBlocks blank bs) (he : l.entry = some e) :
    ∃ b ∈ bs, ∃ l' ∈ b, l'.entry = some e := by
  induction bs with
  | nil => cases hl
  | cons b bs ih =>
    cases bs with
    | nil => exact ⟨b, by simp, mem_elbow hl he⟩
    | cons b' bs =>
      rw [joinBlocks_cons_cons, List.mem_append] at hl
      rcases hl with hl | hl
      · exact ⟨b, by simp, mem_branch hl he⟩
      · obtain ⟨c, hc, hl'⟩ := ih hl
        exact ⟨c, List.mem_cons_of_mem _ hc, hl'⟩

/-- Blocks with an entry that is not blank on top keep all their
entries. -/
theorem entries_joinBlocks (bs : List (List (Line ε)))
    (h : ∀ b ∈ bs, ∃ m e ls, b = ⟨m, some e⟩ :: ls ∧ blank e = false) :
    (joinBlocks blank bs).map Line.entry = (bs.map (List.map Line.entry)).flatten := by
  have hindent : ∀ (m : String) (ls : List (Line ε)),
      (ls.map (Line.indent m)).map Line.entry = ls.map Line.entry := by
    intro m ls
    rw [List.map_map]
    rfl
  induction bs with
  | nil => rfl
  | cons b bs ih =>
    obtain ⟨m, e, ls, rfl, hblank⟩ := h b (by simp)
    cases bs with
    | nil => simp [joinBlocks, Line.elbow, Line.indent, hindent]
    | cons b' bs =>
      rw [joinBlocks_cons_cons, List.map_append, ih fun c hc => h c (by simp [hc]), List.map_cons,
        List.flatten_cons]
      congr 1
      simp only [Line.branch, Option.all_some, hblank, Bool.and_false, Bool.false_and,
        Bool.false_eq_true, if_false, List.map_cons, hindent]
      rfl

/-! ### What stands below a line -/

section LeafAt

variable {ref : ε → Bool}

/-- **Nothing stands below a reference**: the next line starts no further
to the right. -/
def LeafAt (ref : ε → Bool) (a b : Line ε) : Prop :=
  a.entry.any ref = true → b.margin.length ≤ a.margin.length

theorem isChain_indent {m m' : String} (hm : m.toList.length = m'.toList.length) {first : Line ε}
    {rest : List (Line ε)} (h : (first :: rest).IsChain (LeafAt ref)) :
    (first.indent m :: rest.map (Line.indent m')).IsChain (LeafAt ref) := by
  have hindent : ∀ {m m' : String} {a b : Line ε}, m.toList.length = m'.toList.length →
      LeafAt ref a b → LeafAt ref (a.indent m) (b.indent m') := by
    intro m m' a b hm hab href
    have := hab href
    simp only [Line.indent, List.length_append]
    omega
  rw [List.isChain_cons] at h ⊢
  refine ⟨fun y hy => ?_, (List.isChain_map _).2 (h.2.imp fun a b hab => hindent rfl hab)⟩
  rw [List.head?_map, Option.mem_def, Option.map_eq_some_iff] at hy
  obtain ⟨z, hz, rfl⟩ := hy
  exact hindent hm (h.1 z hz)

/-- A block starts at the margin. -/
def IsBlock (ref : ε → Bool) (b : List (Line ε)) : Prop :=
  b.IsChain (LeafAt ref) ∧ ∃ e ls, b = ⟨[], some e⟩ :: ls

theorem isChain_joinBlocks (bs : List (List (Line ε))) (h : ∀ b ∈ bs, IsBlock ref b) :
    (joinBlocks blank bs).IsChain (LeafAt ref) ∧
      ∀ y ∈ (joinBlocks blank bs).head?, y.margin.length ≤ 4 := by
  induction bs with
  | nil => exact ⟨.nil, by simp [joinBlocks]⟩
  | cons b bs ih =>
    obtain ⟨hchain, e, ls, rfl⟩ := h b (by simp)
    cases bs with
    | nil =>
      refine ⟨isChain_indent (by decide) hchain, fun y hy => ?_⟩
      obtain rfl := Option.some.inj hy
      simp [Line.indent]
    | cons b' bs =>
      obtain ⟨hrest, hhead⟩ := ih fun c hc => h c (by simp [hc])
      rw [joinBlocks_cons_cons, List.isChain_append]
      simp only [Line.branch]
      split_ifs
      · -- a bar is no reference
        refine ⟨⟨.singleton _, hrest, fun x hx y _ href => ?_⟩, fun y hy => ?_⟩
        · obtain rfl := Option.some.inj hx
          cases href
        · obtain rfl := Option.some.inj hy
          exact (by decide : "│".toList.length ≤ 4)
      · refine ⟨⟨isChain_indent (by decide) hchain, hrest, fun x hx y hy _ => ?_⟩, fun y hy => ?_⟩
        · -- every line of the block is indented at least as far
          have hx' := List.mem_of_getLast? hx
          have hmargin : 4 ≤ x.margin.length := by
            rcases List.mem_cons.1 hx' with rfl | hx'
            · simp [Line.indent]
            · obtain ⟨l, -, rfl⟩ := List.mem_map.1 hx'
              simp [Line.indent]
          exact (hhead y hy).trans hmargin
        · obtain rfl := Option.some.inj hy
          simp [Line.indent]

/-- A format is a block if a reference has no children, from the level of
its root on. -/
theorem isBlock_of_formatTree {lo : ℕ} (hleaf : ∀ st level t, lo ≤ level →
      ref (getEntry (prune t st).2 level t (prune t st).1) = true →
      getChild (prune t st).2 level t = some []) (fuel : ℕ) :
    ∀ {level : ℕ} {t : ν} {st st' : σ} {ls : List (Line ε)}, lo ≤ level →
    formatTree prune getEntry getChild blank fuel level t st = some (ls, st') → IsBlock ref ls := by
  induction fuel with
  | zero => rintro level t st st' ls - ⟨⟩
  | succ fuel ih =>
    intro level t st st' ls hlevel h
    obtain ⟨cs, bs, hcs, hruns, rfl⟩ := runs_of_formatTree h
    refine ⟨List.isChain_cons.2 ⟨fun y hy href => ?_, (isChain_joinBlocks bs fun b hb => ?_).1⟩,
      _, _, rfl⟩
    · obtain rfl := Option.some.inj (hcs.symm.trans (hleaf st level t hlevel href))
      cases hruns
      cases hy
    · obtain ⟨c, -, st₁, st₂, hrun⟩ := hruns.exists_of_mem hb
      exact ih (by omega) hrun

end LeafAt

end FormatTree

/-! ## The common subtrees found so far -/

namespace Cache

variable {cache : Cache α} {common : Thresholds} {st : Subtrees}

variable (cache common) in
/-- **The indexes are `0` to `n - 1` in the order the subtrees were
found**, no key has two, and each of them qualifies. -/
structure Numbered (st : Subtrees) : Prop where
  idx : st.map Prod.snd = List.range st.length
  nodup : (st.map Prod.fst).Nodup
  qualifies : ∀ e ∈ st, cache.qualifies common e.1 = true

theorem numbered_nil : cache.Numbered common [] := ⟨rfl, List.nodup_nil, by simp⟩

theorem Numbered.lookup_iff (h : cache.Numbered common st) {k : Text} {i : ℕ} :
    st.lookup k = some i ↔ (k, i) ∈ st := by
  rw [List.lookup_eq_some_iff]
  constructor
  · rintro ⟨l₁, l₂, rfl, -⟩
    simp
  · intro hmem
    obtain ⟨l₁, l₂, rfl⟩ := List.append_of_mem hmem
    refine ⟨l₁, l₂, rfl, fun p hp => ?_⟩
    have hnodup := h.nodup
    rw [List.map_append, List.nodup_append] at hnodup
    simpa using (hnodup.2.2 p.1 (List.mem_map_of_mem hp) k (by simp)).symm

theorem Numbered.append (h : cache.Numbered common st) {k : Text} (hnew : st.lookup k = none)
    (hk : cache.qualifies common k = true) :
    cache.Numbered common (st ++ [(k, st.length)]) where
  idx := by simp [h.idx, List.range_succ]
  nodup := by
    rw [List.lookup_eq_none_iff] at hnew
    rw [List.map_append, List.nodup_append]
    refine ⟨h.nodup, by simp, fun a ha b hb => ?_⟩
    obtain ⟨p, hp, rfl⟩ := List.mem_map.1 ha
    rw [List.map_singleton, List.mem_singleton] at hb
    intro heq
    simpa [heq.trans hb] using hnew p hp
  qualifies := by
    intro e he
    rcases List.mem_append.1 he with he | he
    · exact h.qualifies e he
    · rw [List.mem_singleton.1 he]
      exact hk

/-- **What `should_prune_subtree` does**: nothing at a node that does not
qualify; one that does has an index afterwards. -/
theorem shouldPruneSubtree_spec (h : cache.Numbered common st) (t : Tree α) :
    cache.Numbered common (cache.shouldPruneSubtree common true t st).2 ∧
      st <+: (cache.shouldPruneSubtree common true t st).2 ∧
      ((∃ k i, t.cacheKey = some k ∧ cache.qualifies common k = true ∧
          (cache.shouldPruneSubtree common true t st).1 = some i ∧
          (k, i) ∈ (cache.shouldPruneSubtree common true t st).2) ∨
        ((∀ k, t.cacheKey = some k → cache.qualifies common k = false) ∧
          cache.shouldPruneSubtree common true t st = (none, st))) := by
  unfold shouldPruneSubtree
  cases hkey : t.cacheKey with
  | none => exact ⟨h, List.prefix_rfl, .inr ⟨by simp, rfl⟩⟩
  | some k =>
    simp only [Bool.true_and]
    split_ifs with hq
    · cases hlook : st.lookup k with
      | some i => exact ⟨h, List.prefix_rfl, .inl ⟨k, i, rfl, hq, rfl, h.lookup_iff.1 hlook⟩⟩
      | none =>
        exact ⟨h.append hlook hq, List.prefix_append _ _, .inl ⟨k, _, rfl, hq, rfl, by simp⟩⟩
    · exact ⟨h, List.prefix_rfl, .inr ⟨by simpa using hq, rfl⟩⟩

/-! ## What a format refers to -/

section Refers

variable {getEntry : Subtrees → ℕ → Tree α → Option ℕ → Entry α}
  {getChild : Subtrees → ℕ → Tree α → Option (List (Tree α))} {blank : Entry α → Bool}

/-- An index that is printed behind a node is the one of its key. -/
def Refers (st : Subtrees) (ls : List (Line (Entry α))) : Prop :=
  ∀ l ∈ ls, ∀ e, l.entry = some e → ∀ i, e.commonIdx = some i →
    ∃ k, e.node.cacheKey = some k ∧ (k, i) ∈ st

/-- **A format adds the subtrees it finds, and refers to those only.** -/
theorem refers_of_formatTree (hentry : ∀ st level t idx, (getEntry st level t idx).node = t ∧
      ((getEntry st level t idx).commonIdx = idx ∨ (getEntry st level t idx).commonIdx = none))
    (fuel : ℕ) : ∀ {level : ℕ} {t : Tree α} {st st' : Subtrees} {ls : List (Line (Entry α))},
    formatTree (cache.shouldPruneSubtree common true) getEntry getChild blank fuel level t st =
      some (ls, st') → cache.Numbered common st →
    cache.Numbered common st' ∧ st <+: st' ∧ Refers st' ls := by
  induction fuel with
  | zero => rintro level t st st' ls ⟨⟩
  | succ fuel ih =>
    intro level t st st' ls h hst
    obtain ⟨cs, bs, -, hruns, rfl⟩ := runs_of_formatTree h
    obtain ⟨hst₁, hpre₁, hcases⟩ := shouldPruneSubtree_spec hst t
    -- the blocks of the children, one after the other
    have hall : ∀ {cs : List (Tree α)} {st st' : Subtrees} {bs : List (List (Line (Entry α)))},
        Runs (formatTree (cache.shouldPruneSubtree common true) getEntry getChild blank fuel
          (level + 1)) cs st bs st' → cache.Numbered common st →
        cache.Numbered common st' ∧ st <+: st' ∧ ∀ b ∈ bs, Refers st' b := by
      intro cs st st' bs hruns
      induction hruns with
      | nil st => intro hst; exact ⟨hst, List.prefix_rfl, by simp⟩
      | cons hstep _ ihs =>
        intro hst
        obtain ⟨hst₁, hpre₁, hrefers₁⟩ := ih hstep hst
        obtain ⟨hst₂, hpre₂, hrefers₂⟩ := ihs hst₁
        refine ⟨hst₂, hpre₁.trans hpre₂, fun b hb => ?_⟩
        rcases List.mem_cons.1 hb with rfl | hb
        · intro l hl e he i hi
          obtain ⟨k, hkey, hk⟩ := hrefers₁ l hl e he i hi
          exact ⟨k, hkey, hpre₂.subset hk⟩
        · exact hrefers₂ b hb
    obtain ⟨hst₂, hpre₂, hrefers⟩ := hall hruns hst₁
    refine ⟨hst₂, hpre₁.trans hpre₂, fun l hl e he i hi => ?_⟩
    rcases List.mem_cons.1 hl with rfl | hl
    · -- the root itself
      obtain rfl := Option.some.inj he
      obtain ⟨hnode, hidx | hidx⟩ := hentry (cache.shouldPruneSubtree common true t st).2 level t
        (cache.shouldPruneSubtree common true t st).1
      · rw [hidx] at hi
        rcases hcases with ⟨k, j, hkey, -, hj, hmem⟩ | ⟨-, hnone⟩
        · obtain rfl := Option.some.inj (hj.symm.trans hi)
          exact ⟨k, by rw [hnode, hkey], hpre₂.subset hmem⟩
        · rw [hnone] at hi
          cases hi
      · rw [hidx] at hi
        cases hi
    · obtain ⟨b, hb, l', hl', he'⟩ := mem_joinBlocks hl he
      exact hrefers b hb l' hl' e he' i hi

theorem treeEntry_node (st : Subtrees) (level : ℕ) (t : Tree α) (idx : Option ℕ) :
    (treeEntry st level t idx).node = t ∧
      ((treeEntry st level t idx).commonIdx = idx ∨ (treeEntry st level t idx).commonIdx = none) :=
  ⟨rfl, .inl rfl⟩

theorem commonEntry_node (st : Subtrees) (level : ℕ) (t : Tree α) (idx : Option ℕ) :
    (commonEntry st level t idx).node = t ∧
      ((commonEntry st level t idx).commonIdx = idx ∨
        (commonEntry st level t idx).commonIdx = none) := by
  unfold commonEntry
  split_ifs
  · exact ⟨rfl, .inr rfl⟩
  · exact ⟨rfl, .inl rfl⟩

end Refers

/-! ## The lines of the section -/

section Section

variable {printer : Printer α} {fuel level : ℕ} {st' : Subtrees} {ls : List (Line (Entry α))}

variable (cache common printer) in
/-- The format of a node of the `[common]` section. -/
def commonFormat (fuel level : ℕ) (t : Tree α) (st : Subtrees) :
    Option (List (Line (Entry α)) × Subtrees) :=
  formatTree (cache.shouldPruneSubtree common true) commonEntry cache.getChildCommon printer.blank
    fuel level t st

/-- After the prune the key of a node is found exactly where it
qualifies. -/
theorem lookup_shouldPruneSubtree (h : cache.Numbered common st) {t : Tree α} {k : Text}
    (hkey : t.cacheKey = some k) :
    ((cache.shouldPruneSubtree common true t st).2.lookup k).isSome = cache.qualifies common k := by
  obtain ⟨hnum, -, ⟨k', i, hkey', hq, -, hmem⟩ | ⟨hq, -⟩⟩ := shouldPruneSubtree_spec h t
  · obtain rfl := Option.some.inj (hkey.symm.trans hkey')
    rw [hq, hnum.lookup_iff.2 hmem]
    rfl
  · rw [hq k hkey, Option.isSome_eq_false_iff, Option.isNone_iff_eq_none, List.lookup_eq_none_iff]
    intro e he
    have hqe := hnum.qualifies e he
    by_contra hne
    simp only [bne_iff_ne, ne_eq, not_not] at hne
    rw [← hne, hq k hkey] at hqe
    cases hqe

/-- So the children that are printed do not depend on what was found. -/
theorem getChildCommon_shouldPruneSubtree {st₁ st₂ : Subtrees} (h₁ : cache.Numbered common st₁)
    (h₂ : cache.Numbered common st₂) (level : ℕ) (t : Tree α) :
    cache.getChildCommon (cache.shouldPruneSubtree common true t st₁).2 level t =
      cache.getChildCommon (cache.shouldPruneSubtree common true t st₂).2 level t := by
  unfold getChildCommon
  cases hkey : t.cacheKey with
  | none => rfl
  | some k => simp only [lookup_shouldPruneSubtree h₁ hkey, lookup_shouldPruneSubtree h₂ hkey]

theorem numbered_of_commonFormat {t : Tree α}
    (h : cache.commonFormat common printer fuel level t st = some (ls, st'))
    (hst : cache.Numbered common st) : cache.Numbered common st' ∧ st <+: st' ∧ Refers st' ls :=
  refers_of_formatTree commonEntry_node fuel h hst

theorem length_of_runs {cs : List (Tree α)} {bs : List (List (Line (Entry α)))}
    (h : Runs (cache.commonFormat common printer fuel level) cs st bs st') :
    (joinBlocks printer.blank bs).length = (bs.map List.length).sum := by
  refine length_joinBlocks bs fun b hb => ?_
  obtain ⟨_, _, _, _, hrun⟩ := h.exists_of_mem hb
  exact ne_nil_of_formatTree hrun

theorem length_eq_of_runs {step : Tree α → Subtrees → Option (List (Line (Entry α)) × Subtrees)}
    (hstep : ∀ t st₁ st₂ b₁ b₂ st₁' st₂', cache.Numbered common st₁ → cache.Numbered common st₂ →
      step t st₁ = some (b₁, st₁') → step t st₂ = some (b₂, st₂') →
      b₁.length = b₂.length ∧ cache.Numbered common st₁' ∧ cache.Numbered common st₂')
    {cs : List (Tree α)} {st₁ st₁' : Subtrees} {bs₁ : List (List (Line (Entry α)))}
    (h₁ : Runs step cs st₁ bs₁ st₁') : ∀ {st₂ st₂' : Subtrees} {bs₂ : List (List (Line (Entry α)))},
    Runs step cs st₂ bs₂ st₂' → cache.Numbered common st₁ → cache.Numbered common st₂ →
    bs₁.map List.length = bs₂.map List.length := by
  induction h₁ with
  | nil =>
    intro st₂ st₂' bs₂ h₂ _ _
    cases h₂
    rfl
  | cons hb _ ih =>
    intro st₂ st₂' bs₂ h₂ hn₁ hn₂
    cases h₂ with
    | cons hb₂ hs₂ =>
      obtain ⟨hlen, hn₁', hn₂'⟩ := hstep _ _ _ _ _ _ _ hn₁ hn₂ hb hb₂
      rw [List.map_cons, List.map_cons, hlen, ih hs₂ hn₁' hn₂']

/-- **A format has as many lines whatever was found before**: below
level 1 what qualifies takes one line, and nothing else is pruned. -/
theorem length_commonFormat (fuel : ℕ) : ∀ {level : ℕ} {t : Tree α} {st₁ st₂ st₁' st₂' : Subtrees}
    {ls₁ ls₂ : List (Line (Entry α))}, cache.Numbered common st₁ →
    cache.Numbered common st₂ → cache.commonFormat common printer fuel level t st₁ = some (ls₁, st₁') →
    cache.commonFormat common printer fuel level t st₂ = some (ls₂, st₂') →
    ls₁.length = ls₂.length := by
  induction fuel with
  | zero => rintro level t st₁ st₂ st₁' st₂' ls₁ ls₂ - - ⟨⟩
  | succ fuel ih =>
    intro level t st₁ st₂ st₁' st₂' ls₁ ls₂ hn₁ hn₂ h₁ h₂
    obtain ⟨cs₁, bs₁, hcs₁, hruns₁, rfl⟩ := runs_of_formatTree h₁
    obtain ⟨cs₂, bs₂, hcs₂, hruns₂, rfl⟩ := runs_of_formatTree h₂
    obtain rfl : cs₁ = cs₂ := by
      rw [getChildCommon_shouldPruneSubtree hn₁ hn₂, hcs₂, Option.some.injEq] at hcs₁
      exact hcs₁.symm
    have hlen : bs₁.map List.length = bs₂.map List.length := by
      refine length_eq_of_runs (fun t st₁ st₂ b₁ b₂ st₁' st₂' hn₁ hn₂ hb₁ hb₂ => ?_) hruns₁ hruns₂
        (shouldPruneSubtree_spec hn₁ t).1 (shouldPruneSubtree_spec hn₂ t).1
      exact ⟨ih hn₁ hn₂ hb₁ hb₂, (numbered_of_commonFormat hb₁ hn₁).1,
        (numbered_of_commonFormat hb₂ hn₂).1⟩
    rw [List.length_cons, List.length_cons, length_of_runs hruns₁, length_of_runs hruns₂, hlen]

/-- Below level 1 no entry is numbered. -/
theorem number_of_commonFormat (fuel : ℕ) : ∀ {level : ℕ} {t : Tree α} {st st' : Subtrees}
    {ls : List (Line (Entry α))}, 1 < level →
    cache.commonFormat common printer fuel level t st = some (ls, st') →
    ∀ l ∈ ls, ∀ e, l.entry = some e → e.number = none := by
  induction fuel with
  | zero => rintro level t st st' ls - ⟨⟩
  | succ fuel ih =>
    intro level t st st' ls hlevel h l hl e he
    obtain ⟨cs, bs, -, hruns, rfl⟩ := runs_of_formatTree h
    rcases List.mem_cons.1 hl with rfl | hl
    · obtain rfl := Option.some.inj he
      have hne : (level == 1) = false := by simp; omega
      simp only [commonEntry, hne, Bool.false_eq_true, if_false]
    · obtain ⟨b, hb, l', hl', he'⟩ := mem_joinBlocks hl he
      obtain ⟨c, -, st₁, st₂, hrun⟩ := hruns.exists_of_mem hb
      exact ih (by omega) hrun l' hl' e he'

/-- A numbered entry is not blank: its number stands before it. -/
theorem blank_of_number {e : Entry α} {i : ℕ} (h : e.number = some i) : printer.blank e = false := by
  have hmem : '.' ∈ printer.text e := by
    unfold Printer.text
    rw [h]
    dsimp only
    split_ifs <;> simp
  unfold Printer.blank
  rw [List.all_eq_false]
  exact ⟨'.', hmem, by decide⟩

/-- A key that qualifies has a node. -/
theorem exists_cachedNode (hheight : 0 < common.height) {k : Text}
    (hk : cache.qualifies common k = true) : ∃ t, cache.cachedNode k = some t ∧
      t.cacheKey = some k ∧ k ∈ cache := by
  unfold Cache.qualifies at hk
  unfold cachedNode
  split at hk
  · cases hk
  · simp only [Bool.and_eq_true, beq_iff_eq] at hk
    omega
  · rename_i c hc
    exact ⟨_, by rw [hc], rfl, AList.lookup_isSome.1 (by rw [hc]; rfl)⟩

/-- The nodes of the section. -/
def sectionNodes (cache : Cache α) (st : Subtrees) : List (Tree α) :=
  st.filterMap fun e => cache.cachedNode e.1

variable (cache common printer) in
/-- **The subtree is expanded as the entry numbered `i`**: below it stand
the children of its cached node. -/
def ExpandedAs (es : List (Option (Entry α))) (k : Text) (i : ℕ) : Prop :=
  ∃ t fuel st st' bs, cache.cachedNode k = some t ∧
    Runs (cache.commonFormat common printer fuel 2) (cache.childNodes k) st bs st' ∧
    (some ⟨t, 1, none, some i⟩ :: (joinBlocks printer.blank bs).map Line.entry) <:+: es

theorem ExpandedAs.mono {es es' : List (Option (Entry α))} {k : Text} {i : ℕ}
    (h : cache.ExpandedAs common printer es k i) (hsub : es <:+: es') :
    cache.ExpandedAs common printer es' k i := by
  obtain ⟨t, fuel, st, st', bs, ht, hruns, hinfix⟩ := h
  exact ⟨t, fuel, st, st', bs, ht, hruns, hinfix.trans hsub⟩

/-- The numbers of the entries, in their order. -/
def numbers (es : List (Option (Entry α))) : List ℕ := es.filterMap fun e => e.bind Entry.number

/-- **A level-1 entry**: its number, and the children of its cached node
below it. -/
theorem exists_block (hheight : 0 < common.height) {k : Text} {i : ℕ} {t : Tree α}
    {b : List (Line (Entry α))} (hst : cache.Numbered common st) (hk : (k, i) ∈ st)
    (ht : cache.cachedNode k = some t)
    (hb : cache.commonFormat common printer fuel 1 t st = some (b, st')) :
    ∃ ls, b = ⟨[], some ⟨t, 1, none, some i⟩⟩ :: ls ∧ numbers (ls.map Line.entry) = [] ∧
      cache.ExpandedAs common printer (b.map Line.entry) k i := by
  have hq := hst.qualifies _ hk
  obtain ⟨t', ht', hkey, hmem⟩ := exists_cachedNode hheight hq
  obtain rfl := Option.some.inj (ht.symm.trans ht')
  cases fuel with
  | zero => cases hb
  | succ fuel =>
    obtain ⟨cs, bs, hcs, hruns, rfl⟩ := runs_of_formatTree hb
    -- the subtree was found before, so the prune changes nothing
    have hprune : cache.shouldPruneSubtree common true t st = (some i, st) := by
      simp only [shouldPruneSubtree, hkey, hq, Bool.and_self, if_true, hst.lookup_iff.2 hk]
    simp only [hprune] at hcs hruns ⊢
    have hchild : cs = cache.childNodes k := by
      obtain ⟨v, hv⟩ := Option.isSome_iff_exists.1 (AList.lookup_isSome.2 hmem)
      simpa [getChildCommon, hkey, hv] using hcs.symm
    subst hchild
    have hentry : commonEntry st 1 t (some i) = ⟨t, 1, none, some i⟩ := by
      simp [commonEntry, hkey, hst.lookup_iff.2 hk]
    rw [hentry]
    refine ⟨_, rfl, ?_, t, fuel, st, st', bs, ht, hruns, List.infix_rfl⟩
    rw [numbers, List.filterMap_eq_nil_iff]
    intro e he
    obtain ⟨l, hl, rfl⟩ := List.mem_map.1 he
    cases hle : l.entry with
    | none => rfl
    | some e =>
      obtain ⟨b, hb, l', hl', he'⟩ := mem_joinBlocks hl hle
      obtain ⟨c, -, st₁, st₂, hrun⟩ := hruns.exists_of_mem hb
      exact number_of_commonFormat fuel (by omega) hrun l' hl' e he'

/-- **The blocks of the section**: each starts with its own number, no
other number follows, and each expands its subtree. -/
theorem blocks_of_runs (hheight : 0 < common.height) (es : Subtrees) :
    ∀ {st st' : Subtrees} {bs : List (List (Line (Entry α)))},
    Runs (cache.commonFormat common printer fuel 1) (cache.sectionNodes es) st bs st' →
    cache.Numbered common st → es ⊆ st →
    numbers (bs.map (List.map Line.entry)).flatten = es.map Prod.snd ∧
      (∀ b ∈ bs, ∃ m e ls, b = ⟨m, some e⟩ :: ls ∧ printer.blank e = false) ∧
      ∀ e ∈ es, cache.ExpandedAs common printer (bs.map (List.map Line.entry)).flatten e.1 e.2 := by
  induction es with
  | nil =>
    intro st st' bs hruns _ _
    cases hruns
    exact ⟨rfl, by simp, by simp⟩
  | cons e es ih =>
    intro st st' bs hruns hst hsub
    obtain ⟨k, i⟩ := e
    have hmem : (k, i) ∈ st := hsub (by simp)
    obtain ⟨t, ht, -, -⟩ := exists_cachedNode hheight (hst.qualifies _ hmem)
    have hnodes : cache.sectionNodes ((k, i) :: es) = t :: cache.sectionNodes es := by
      simp only [sectionNodes, List.filterMap_cons, ht]
    rw [hnodes] at hruns
    cases hruns with
    | @cons _ _ _ st₁ _ b bs hb hs =>
      obtain ⟨hst₁, hpre, -⟩ := numbered_of_commonFormat hb hst
      obtain ⟨hnum, hblank, hexp⟩ := ih hs hst₁ fun e he => hpre.subset (hsub (by simp [he]))
      obtain ⟨ls, hls, hnone, hexpanded⟩ := exists_block hheight hst hmem ht hb
      refine ⟨?_, ?_, ?_⟩
      · simp only [List.map_cons, List.flatten_cons, numbers, List.filterMap_append] at hnum hnone ⊢
        rw [hnum, hls, List.map_cons, List.filterMap_cons]
        simp only [Option.bind_some, hnone]
        rfl
      · intro b' hb'
        rcases List.mem_cons.1 hb' with rfl | hb'
        · exact ⟨_, _, _, hls, blank_of_number rfl⟩
        · exact hblank b' hb'
      · intro e he
        rw [List.map_cons, List.flatten_cons]
        rcases List.mem_cons.1 he with rfl | he
        · exact hexpanded.mono (List.prefix_append _ _).isInfix
        · exact (hexp e he).mono (List.suffix_append _ _).isInfix

/-! ## One format of the section -/

theorem Numbered.insertionSort_eq (h : cache.Numbered common st) :
    (st.insertionSort fun a b => a.2 ≤ b.2) = st := by
  refine List.Pairwise.insertionSort_eq ?_
  have hlt : (st.map Prod.snd).Pairwise (· < ·) := by
    rw [h.idx]
    exact List.pairwise_lt_range
  exact (List.pairwise_map.1 hlt).imp fun hab => le_of_lt hab

variable {header : α}

/-- The root `[common]`. -/
def sectionRoot (cache : Cache α) (header : α) (st : Subtrees) : Tree α :=
  .node header none 0 (cache.sectionNodes st)

theorem formatCommonTree_eq (hst : cache.Numbered common st) (hne : st ≠ []) :
    cache.formatCommonTree common printer header fuel false st =
      cache.commonFormat common printer fuel 0 (cache.sectionRoot header st) st := by
  rw [formatCommonTree, hst.insertionSort_eq, Bool.false_or, if_neg (by simpa using hne)]
  rfl

/-- **A format of the section** is the line `[common]` above a block for
each of the subtrees found before it. -/
theorem exists_section (h : cache.commonFormat common printer fuel 0 (cache.sectionRoot header st)
      st = some (ls, st')) :
    ∃ f bs, fuel = f + 1 ∧
      Runs (cache.commonFormat common printer f 1) (cache.sectionNodes st) st bs st' ∧
      ls = ⟨[], some ⟨cache.sectionRoot header st, 0, none, none⟩⟩ :: joinBlocks printer.blank bs := by
  cases fuel with
  | zero => cases h
  | succ fuel =>
    obtain ⟨cs, bs, hcs, hruns, rfl⟩ := runs_of_formatTree h
    obtain rfl := Option.some.inj hcs
    exact ⟨fuel, bs, rfl, hruns, rfl⟩

/-- What a format leaves, with the subtrees found before it or with none. -/
theorem numbered_of_formatCommonTree (hst : cache.Numbered common st)
    (h : cache.formatCommonTree common printer header fuel false st = some (ls, st')) :
    cache.Numbered common st' ∧ st <+: st' ∧ Refers st' ls := by
  by_cases hne : st = []
  · subst hne
    cases h
    exact ⟨hst, List.prefix_rfl, by simp [Refers]⟩
  · rw [formatCommonTree_eq hst hne] at h
    exact numbered_of_commonFormat h hst

/-- **The section numbers the subtrees it expands by their index, each
once.** -/
theorem expanded_of_formatCommonTree (hheight : 0 < common.height) (hst : cache.Numbered common st)
    (h : cache.formatCommonTree common printer header fuel false st = some (ls, st')) :
    numbers (ls.map Line.entry) = List.range st.length ∧
      ∀ k i, (k, i) ∈ st → cache.ExpandedAs common printer (ls.map Line.entry) k i := by
  by_cases hne : st = []
  · subst hne
    cases h
    exact ⟨rfl, by simp⟩
  · rw [formatCommonTree_eq hst hne] at h
    obtain ⟨f, bs, rfl, hruns, rfl⟩ := exists_section h
    obtain ⟨hnum, hblank, hexp⟩ := blocks_of_runs hheight st hruns hst (List.Subset.refl _)
    rw [List.map_cons, entries_joinBlocks bs hblank]
    refine ⟨?_, fun k i hk => (hexp (k, i) hk).mono (List.suffix_cons _ _).isInfix⟩
    rw [← hst.idx, ← hnum]
    rfl

/-! ## From one format to the next -/

/-- **A section with more subtrees has more lines.** -/
theorem length_lt_of_ne (hheight : 0 < common.height) {st₁ st₁' st₂ st₂' : Subtrees}
    {ls₁ ls₂ : List (Line (Entry α))} (hst₁ : cache.Numbered common st₁)
    (hst₂ : cache.Numbered common st₂) (hpre : st₁ <+: st₂) (hne : st₁ ≠ st₂)
    (h₁ : cache.formatCommonTree common printer header fuel false st₁ = some (ls₁, st₁'))
    (h₂ : cache.formatCommonTree common printer header fuel false st₂ = some (ls₂, st₂')) :
    ls₁.length < ls₂.length := by
  obtain ⟨more, rfl⟩ := hpre
  have hmore : more ≠ [] := by
    rintro rfl
    simp at hne
  rw [formatCommonTree_eq hst₂ (by simp [hmore])] at h₂
  obtain ⟨f, bs, rfl, hruns, rfl⟩ := exists_section h₂
  have hnodes : cache.sectionNodes (st₁ ++ more) = cache.sectionNodes st₁ ++ cache.sectionNodes more :=
    List.filterMap_append
  have hlen := length_of_runs hruns
  rw [hnodes] at hruns
  obtain ⟨bs₁, bs₂, st₃, rfl, hruns₁, hruns₂⟩ := hruns.append_inv
  by_cases hnil : st₁ = []
  · subst hnil
    cases h₁
    simp
  · rw [formatCommonTree_eq hst₁ hnil] at h₁
    obtain ⟨f, bs, hf, hruns, rfl⟩ := exists_section h₁
    obtain rfl := Nat.succ.inj hf
    -- the blocks of what was found before are as long as they were
    have heq : bs.map List.length = bs₁.map List.length := by
      refine length_eq_of_runs (fun t s₁ s₂ b₁ b₂ s₁' s₂' hn₁ hn₂ hb₁ hb₂ => ?_) hruns hruns₁
        hst₁ hst₂
      exact ⟨length_commonFormat _ hn₁ hn₂ hb₁ hb₂, (numbered_of_commonFormat hb₁ hn₁).1,
        (numbered_of_commonFormat hb₂ hn₂).1⟩
    -- and there is one block more
    have hpos : 0 < (bs₂.map List.length).sum := by
      obtain ⟨⟨k, i⟩, rest, rfl⟩ := List.exists_cons_of_ne_nil hmore
      obtain ⟨t, ht, -, -⟩ := exists_cachedNode hheight (hst₂.qualifies (k, i) (by simp))
      simp only [sectionNodes, List.filterMap_cons, ht] at hruns₂
      cases hruns₂ with
      | cons hb _ =>
        have := List.length_pos_iff.2 (ne_nil_of_formatTree hb)
        rw [List.map_cons, List.sum_cons]
        omega
    rw [List.length_cons, List.length_cons, hlen, length_of_runs hruns, heq, List.map_append,
      List.sum_append]
    omega

/-! ## The loop over the formats -/

theorem formatCommonTree_mono {fuel fuel' : ℕ} (hle : fuel ≤ fuel') {quiet : Bool}
    {r : List (Line (Entry α)) × Subtrees}
    (h : cache.formatCommonTree common printer header fuel quiet st = some r) :
    cache.formatCommonTree common printer header fuel' quiet st = some r := by
  unfold formatCommonTree at h ⊢
  split_ifs at h ⊢
  · exact h
  · exact formatTree_mono hle h

theorem formatUntilConvergent_mono {fuel fuel' rounds rounds' : ℕ} (hle : fuel ≤ fuel')
    (hrounds : rounds ≤ rounds') {quiet : Bool} : ∀ {prev : List (Line (Entry α))} {st : Subtrees}
    {r : List (Line (Entry α)) × Subtrees},
    cache.formatUntilConvergent common printer header fuel quiet rounds prev st = some r →
    cache.formatUntilConvergent common printer header fuel' quiet rounds' prev st = some r := by
  induction rounds generalizing rounds' with
  | zero => rintro prev st r ⟨⟩
  | succ rounds ih =>
    intro prev st r h
    obtain ⟨rounds', rfl⟩ : ∃ k, rounds' = k + 1 := ⟨rounds' - 1, by omega⟩
    simp only [formatUntilConvergent, Option.bind_eq_bind, Option.bind_eq_some_iff] at h ⊢
    obtain ⟨x, hx, h⟩ := h
    refine ⟨x, formatCommonTree_mono hle hx, ?_⟩
    split_ifs at h ⊢
    · exact h
    · exact ih (by omega) h

/-- So many levels are enough for any format of the section. -/
theorem exists_formatCommonTree (hheight : 0 < common.height) (hwf : cache.Wf)
    (hacyclic : cache.Acyclic) (hfuel : cache.keys.toFinset.card + 3 ≤ fuel)
    (hst : cache.Numbered common st) :
    ∃ r, cache.formatCommonTree common printer header fuel false st = some r := by
  by_cases hne : st = []
  · subst hne
    exact ⟨_, rfl⟩
  · rw [formatCommonTree_eq hst hne]
    have hends : Ends (cache.shouldPruneSubtree common true) commonEntry cache.getChildCommon
        printer.blank (cache.keys.toFinset.card + 3) (cache.sectionRoot header st) := by
      refine ends_succ fun level st' => ⟨cache.sectionNodes st, rfl, fun c hc => ?_⟩
      obtain ⟨⟨k, i⟩, hk, hc⟩ := List.mem_filterMap.1 hc
      obtain ⟨t, ht, hkey, hmem⟩ := exists_cachedNode hheight (hst.qualifies _ hk)
      obtain rfl := Option.some.inj (hc.symm.trans ht)
      exact ends_of_key hwf hacyclic follows_getChildCommon hkey hmem
    exact hends.mono hfuel 0 st

theorem Numbered.length_le (hheight : 0 < common.height) (hst : cache.Numbered common st) :
    st.length ≤ cache.keys.length := by
  have hsub : st.map Prod.fst ⊆ cache.keys := by
    intro k hk
    obtain ⟨e, he, rfl⟩ := List.mem_map.1 hk
    obtain ⟨-, -, -, hmem⟩ := exists_cachedNode hheight (hst.qualifies e he)
    exact hmem
  simpa using (List.subperm_of_subset hst.nodup hsub).length_le

/-- **The loop ends, and the section it returns finds nothing more**: the
lines are those of a format that leaves the subtrees as they were. The
subtrees found grow from round to round and are keys of the cache. -/
theorem exists_formatUntilConvergent (hheight : 0 < common.height) (hwf : cache.Wf)
    (hacyclic : cache.Acyclic) (hfuel : cache.keys.toFinset.card + 3 ≤ fuel) (rounds : ℕ) :
    ∀ {prev : List (Line (Entry α))} {st st₁ : Subtrees},
    cache.Numbered common st → cache.keys.length - st.length < rounds →
    cache.formatCommonTree common printer header fuel false st = some (prev, st₁) →
    ∃ lines st', cache.formatUntilConvergent common printer header fuel false rounds prev st₁ =
        some (lines, st') ∧ cache.Numbered common st' ∧ st <+: st' ∧
      cache.formatCommonTree common printer header fuel false st' = some (lines, st') := by
  induction rounds with
  | zero => intro prev st st₁ _ h; omega
  | succ rounds ih =>
    intro prev st st₁ hst hrounds h
    obtain ⟨hst₁, hpre, -⟩ := numbered_of_formatCommonTree hst h
    obtain ⟨⟨lines, st₂⟩, h₂⟩ :
        ∃ r, cache.formatCommonTree common printer header fuel false st₁ = some r :=
      exists_formatCommonTree hheight hwf hacyclic hfuel hst₁
    by_cases heq : st = st₁
    · -- nothing was found: the next format is the same
      subst heq
      obtain ⟨rfl, rfl⟩ := Prod.mk.inj (Option.some.inj (h.symm.trans h₂))
      exact ⟨prev, st, by simp [formatUntilConvergent, h], hst, List.prefix_rfl, h⟩
    · have hlt := length_lt_of_ne hheight hst hst₁ hpre heq h h₂
      have hmore : st.length < st₁.length := by
        refine lt_of_le_of_ne hpre.length_le fun hlen => heq (hpre.eq_of_length hlen)
      have hbound := hst₁.length_le hheight
      obtain ⟨lines', st', hrun, hst', hpre', hfix⟩ := ih hst₁ (by omega) h₂
      refine ⟨lines', st', ?_, hst', hpre.trans hpre', hfix⟩
      simp only [formatUntilConvergent, h₂, Option.bind_eq_bind, Option.bind_some, if_neg hlt.ne]
      exact hrun

/-! ## Nothing stands below a reference -/

/-- The entry is printed with the index of a common subtree behind it. -/
def isReference (e : Entry α) : Bool := e.commonIdx.isSome

theorem lookup_of_shouldPruneSubtree {t : Tree α}
    (h : (cache.shouldPruneSubtree common true t st).1.isSome = true) :
    ∃ k, t.cacheKey = some k ∧
      ((cache.shouldPruneSubtree common true t st).2.lookup k).isSome = true := by
  unfold shouldPruneSubtree at h ⊢
  cases hkey : t.cacheKey with
  | none => simp [hkey] at h
  | some k =>
    refine ⟨k, rfl, ?_⟩
    simp only [hkey] at h ⊢
    split_ifs at h ⊢
    · cases hlook : st.lookup k with
      | some i => simp [hlook]
      | none => simp [List.lookup_append, hlook]
    · cases h

theorem isChain_formatPrunedTree {root : Tree α}
    (h : cache.formatPrunedTree common printer fuel true root st = some (ls, st')) :
    ls.IsChain (LeafAt isReference) := by
  refine (isBlock_of_formatTree (fun st level t _ href => ?_) fuel le_rfl h).1
  obtain ⟨k, hkey, hlook⟩ := lookup_of_shouldPruneSubtree href
  simp only [getChildPruned, hkey, hlook, if_true]

theorem isChain_formatCommonTree (hst : cache.Numbered common st)
    (h : cache.formatCommonTree common printer header fuel false st = some (ls, st')) :
    ls.IsChain (LeafAt isReference) := by
  by_cases hne : st = []
  · subst hne
    cases h
    exact .nil
  · rw [formatCommonTree_eq hst hne] at h
    obtain ⟨f, bs, rfl, hruns, rfl⟩ := exists_section h
    refine List.isChain_cons.2 ⟨fun y _ href => (by cases href),
      (isChain_joinBlocks bs fun b hb => ?_).1⟩
    obtain ⟨c, -, st₁, st₂, hrun⟩ := hruns.exists_of_mem hb
    refine isBlock_of_formatTree (fun st level t hlevel href => ?_) f le_rfl hrun
    unfold commonEntry isReference at href
    split_ifs at href with hone
    · -- at level 1 no index stands behind the entry
      cases href
    · obtain ⟨k, hkey, hlook⟩ := lookup_of_shouldPruneSubtree href
      have hbelow : 1 < level := by
        rw [beq_iff_eq] at hone
        omega
      simp only [getChildCommon, hkey, hlook, hbelow, decide_true, Bool.and_self, if_true]

/-! ## The whole output -/

variable (cache common printer) in
/-- **The main tree and its section fit together**: the indexes are
`0` to `n - 1`, one for each key; the section numbers each of them once;
a reference is to a subtree that the section expands under its number,
and is expanded nowhere else. -/
structure ReferencesResolve (main lines : List (Line (Entry α))) (st : Subtrees) : Prop where
  idx : st.map Prod.snd = List.range st.length
  keys : (st.map Prod.fst).Nodup
  numbers : numbers (lines.map Line.entry) = List.range st.length
  refers : ∀ l ∈ main ++ lines, ∀ e, l.entry = some e → ∀ i, e.commonIdx = some i →
    ∃ k, e.node.cacheKey = some k ∧ (k, i) ∈ st ∧
      cache.ExpandedAs common printer (lines.map Line.entry) k i
  leaves : main.IsChain (LeafAt isReference) ∧ lines.IsChain (LeafAt isReference)

/-- **Every reference to a common subtree is resolved**, for any tree over
an acyclic cache: both formats end, and from so many levels and rounds on
give the same lines. -/
theorem referencesResolve_of_acyclic (hwf : cache.Wf) (hacyclic : cache.Acyclic)
    (hheight : 3 ≤ common.height) (hcount : 2 ≤ common.count) {root : Tree α}
    (hroot : cache.Over root) (printer : Printer α) (header : α) :
    ∃ n main st lines st',
      (∀ fuel, n ≤ fuel → cache.formatPrunedTree common printer fuel common.enabledPrune root [] =
        some (main, st)) ∧
      (∀ fuel rounds, n ≤ fuel → n ≤ rounds →
        cache.formatConvergentCommonTree common printer header fuel rounds false st =
          some (lines, st')) ∧
      cache.ReferencesResolve common printer main lines st' := by
  have henabled : common.enabledPrune = true := by simp [Thresholds.enabledPrune, hheight, hcount]
  have hpos : 0 < common.height := by omega
  rw [henabled]
  obtain ⟨n, ⟨main, st⟩, hmain⟩ := expansionEnds_of_acyclic hwf hacyclic root hroot common true
    printer []
  obtain ⟨hst, -, hrefers⟩ := refers_of_formatTree treeEntry_node n (hmain n le_rfl) numbered_nil
  -- the formats of the section, with enough levels for each
  obtain ⟨⟨prev, st₁⟩, hprev⟩ : ∃ r, cache.formatCommonTree common printer header
      (cache.keys.toFinset.card + 3) false st = some r :=
    exists_formatCommonTree hpos hwf hacyclic le_rfl hst
  obtain ⟨lines, st', hloop, hst', hpre, hfix⟩ := exists_formatUntilConvergent hpos hwf hacyclic le_rfl
    (cache.keys.length + 1) hst (by omega) hprev
  refine ⟨n + (cache.keys.toFinset.card + 3) + (cache.keys.length + 1), main, st, lines, st',
    fun fuel hfuel => hmain fuel (by omega), fun fuel rounds hfuel hrounds => ?_, ?_⟩
  · simp only [formatConvergentCommonTree, Option.bind_eq_bind, Option.bind_eq_some_iff]
    exact ⟨_, formatCommonTree_mono (by omega) hprev,
      formatUntilConvergent_mono (by omega) (by omega) hloop⟩
  · obtain ⟨hnumbers, hexp⟩ := expanded_of_formatCommonTree hpos hst' hfix
    refine ⟨hst'.idx, hst'.nodup, hnumbers, fun l hl e he i hi => ?_,
      isChain_formatPrunedTree (hmain n le_rfl), isChain_formatCommonTree hst' hfix⟩
    obtain ⟨k, hkey, hk⟩ : ∃ k, e.node.cacheKey = some k ∧ (k, i) ∈ st' := by
      rcases List.mem_append.1 hl with hl | hl
      · obtain ⟨k, hkey, hk⟩ := hrefers l hl e he i hi
        exact ⟨k, hkey, hpre.subset hk⟩
      · exact (numbered_of_formatCommonTree hst' hfix).2.2 l hl e he i hi
    exact ⟨k, hkey, hk, hexp k i hk⟩

/-- A function `b` that is called twice, and calls `c`. -/
def twiceCache : Cache Char :=
  List.toAList [⟨['b'], some ⟨'b', 3, 2, [.ref 'c' ['c'] 2 1]⟩⟩,
    ⟨['c'], some ⟨'c', 2, 1, [.leaf 'd' .deep]⟩⟩]

def twiceTree : Tree Char := .node 'a' none 4 [.ref 'b' ['b'] 3 1, .ref 'b' ['b'] 3 2]

theorem mem_childNodes_twiceCache {k : Text} {t : Tree Char} (h : t ∈ twiceCache.childNodes k) :
    (k = ['b'] ∧ t = .ref 'c' ['c'] 2 1) ∨ (k = ['c'] ∧ t = .leaf 'd' .deep) := by
  have hk : k ∈ [['b'], ['c']] := mem_of_mem_childNodes h
  simp only [List.mem_cons, List.not_mem_nil, or_false] at hk
  rcases hk with rfl | rfl
  · exact .inl ⟨rfl, List.mem_singleton.1 (show t ∈ [Tree.ref 'c' ['c'] 2 1] from h)⟩
  · exact .inr ⟨rfl, List.mem_singleton.1 (show t ∈ [Tree.leaf 'd' .deep] from h)⟩

theorem acyclic_twiceCache : twiceCache.Acyclic := by
  have hedge : ∀ {u v : Text}, twiceCache.Edge u v → u = ['b'] ∧ v = ['c'] := by
    intro u v huv
    obtain ⟨t, ht, hkey⟩ := List.mem_filterMap.1 huv
    rcases mem_childNodes_twiceCache ht with ⟨rfl, rfl⟩ | ⟨rfl, rfl⟩
    · exact ⟨rfl, (Option.some.inj hkey).symm⟩
    · cases hkey
  intro k hk
  obtain ⟨d, hkd, -⟩ := Relation.TransGen.head'_iff.1 hk
  obtain ⟨e, -, hek⟩ := Relation.TransGen.tail'_iff.1 hk
  exact absurd ((hedge hkd).1.symm.trans (hedge hek).2) (by decide)

/-- The call of `b` is printed as a reference, and the section expands
it. -/
theorem referencesResolve_twiceCache : ∃ n main st lines st',
    (∀ fuel, n ≤ fuel → twiceCache.formatPrunedTree ⟨3, 2⟩ ⟨fun t _ => [t.val], false⟩ fuel
      (Thresholds.enabledPrune ⟨3, 2⟩) twiceTree [] = some (main, st)) ∧
    (∀ fuel rounds, n ≤ fuel → n ≤ rounds →
      twiceCache.formatConvergentCommonTree ⟨3, 2⟩ ⟨fun t _ => [t.val], false⟩ 'z' fuel rounds false
        st = some (lines, st')) ∧
    twiceCache.ReferencesResolve ⟨3, 2⟩ ⟨fun t _ => [t.val], false⟩ main lines st' ∧
    main.map (fun l => l.entry.bind Entry.commonIdx) = [none, some 0, some 0] := by
  have hwf : twiceCache.Wf := by
    refine ⟨fun k t ht d hd => ?_, fun k t ht hnone => ?_⟩
    · rcases mem_childNodes_twiceCache ht with ⟨rfl, rfl⟩ | ⟨rfl, rfl⟩
      · cases hd
        decide
      · cases hd
    · rcases mem_childNodes_twiceCache ht with ⟨rfl, rfl⟩ | ⟨rfl, rfl⟩
      · cases hnone
      · rfl
  have hroot : twiceCache.Over twiceTree := by
    refine .plain rfl fun c hc => .keyed (k := ['b']) ?_ (by decide)
    rcases List.mem_cons.1 hc with rfl | hc
    · rfl
    · rw [List.mem_singleton.1 hc]
      rfl
  obtain ⟨n, main, st, lines, st', hmain, hlines, hresolve⟩ :=
    @referencesResolve_of_acyclic _ twiceCache ⟨3, 2⟩ hwf acyclic_twiceCache le_rfl le_rfl _ hroot
      ⟨fun t _ => [t.val], false⟩ 'z'
  refine ⟨n, main, st, lines, st', hmain, hlines, hresolve, ?_⟩
  have hshort : (twiceCache.formatPrunedTree ⟨3, 2⟩ ⟨fun t _ => [t.val], false⟩ (n + 2)
      (Thresholds.enabledPrune ⟨3, 2⟩) twiceTree []).map
        (fun r => r.1.map fun l => l.entry.bind Entry.commonIdx) =
      some [none, some 0, some 0] := rfl
  rw [hmain (n + 2) (Nat.le_add_right n 2)] at hshort
  exact Option.some.inj hshort

/-- **Below a child without a key** a reference to the node above it is
never printed to its end. -/
theorem formatPrunedTree_acyclic_innerCache :
    innerCache.Acyclic ∧ innerCache.Over (.ref 'a' ['a'] 1 3) ∧
      ∀ fuel, innerCache.formatPrunedTree ⟨3, 2⟩ ⟨fun t _ => [t.val], false⟩ fuel
        (Thresholds.enabledPrune ⟨3, 2⟩) (.ref 'a' ['a'] 1 3) [] = none :=
  ⟨acyclic_innerCache, over_innerCache, formatPrunedTree_innerCache _ _⟩

end Section

end Cache

end Calltree

end CppEtudes
