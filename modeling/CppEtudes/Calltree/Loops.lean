import CppEtudes.Calltree.Model.Format

/-!
# Loops in the cache

A reference stands for the children of the cached node of its key, so a
loop among the keys would be printed for ever. `remove_all_loops` leaves
none, and cuts only children that lie on one; on a cache without loops
every format comes to an end, since a path of references is no longer
than the cache has keys.
-/

namespace CppEtudes

namespace Calltree

open Relation

variable {α : Type}

namespace Cache

/-- An edge for each child with a key. -/
def Edge (cache : Cache α) (k d : Text) : Prop := d ∈ cache.childKeys k

/-- No key leads back to itself. -/
def Acyclic (cache : Cache α) : Prop := ∀ k, ¬ TransGen cache.Edge k k

/-- **A cache as `sub_tree` builds it**: a child has a key of the cache,
or it is a leaf. -/
structure Wf (cache : Cache α) : Prop where
  keys : ∀ k, ∀ t ∈ cache.childNodes k, ∀ d, t.cacheKey = some d → d ∈ cache
  leaves : ∀ k, ∀ t ∈ cache.childNodes k, t.cacheKey = none → t.child = []

/-- A tree over the cache: below nodes without a key, every key is one of
the cache. -/
inductive Over (cache : Cache α) : Tree α → Prop
  | keyed {t : Tree α} {k : Text} (hkey : t.cacheKey = some k) (hk : k ∈ cache) : Over cache t
  | plain {t : Tree α} (hkey : t.cacheKey = none) (h : ∀ c ∈ t.child, Over cache c) : Over cache t

theorem mem_of_mem_childNodes {cache : Cache α} {k : Text} {t : Tree α}
    (h : t ∈ cache.childNodes k) : k ∈ cache := by
  by_contra hk
  rw [← AList.lookup_eq_none] at hk
  simp [childNodes, hk] at h

theorem mem_of_edge {cache : Cache α} {k d : Text} (h : cache.Edge k d) : k ∈ cache := by
  obtain ⟨t, ht, -⟩ := List.mem_filterMap.1 h
  exact mem_of_mem_childNodes ht

theorem childNodes_insert (cache : Cache α) (k : Text) (v : Option (Cached α)) :
    childNodes (cache.insert k v) k = (v.map Cached.child).getD [] := by
  cases v <;> simp [childNodes]

theorem childNodes_insert_ne {cache : Cache α} {k w : Text} (h : w ≠ k) (v : Option (Cached α)) :
    childNodes (cache.insert k v) w = cache.childNodes w := by
  simp only [childNodes, AList.lookup_insert_ne h]

/-- A node for the cache: with a key of it, or a leaf. -/
def Fits (cache : Cache α) (t : Tree α) : Prop :=
  (∃ k, t.cacheKey = some k ∧ k ∈ cache) ∨ (t.cacheKey = none ∧ t.child = [])

theorem Fits.mono {cache cache' : Cache α} {t : Tree α} (h : cache.Fits t)
    (hkeys : ∀ k ∈ cache, k ∈ cache') : cache'.Fits t := by
  rcases h with ⟨k, hkey, hk⟩ | h
  · exact .inl ⟨k, hkey, hkeys k hk⟩
  · exact .inr h

theorem wf_iff {cache : Cache α} : cache.Wf ↔ ∀ k, ∀ t ∈ cache.childNodes k, cache.Fits t := by
  constructor
  · intro h k t ht
    cases hkey : t.cacheKey with
    | some d => exact .inl ⟨d, hkey, h.keys k t ht d hkey⟩
    | none => exact .inr ⟨hkey, h.leaves k t ht hkey⟩
  · intro h
    refine ⟨fun k t ht d hd => ?_, fun k t ht hkey => ?_⟩
    · rcases h k t ht with ⟨d', hd', hmem⟩ | ⟨hnone, -⟩
      · rw [hd, Option.some.injEq] at hd'
        exact hd' ▸ hmem
      · rw [hd] at hnone
        cases hnone
    · rcases h k t ht with ⟨d, hd, -⟩ | ⟨-, hchild⟩
      · rw [hkey] at hd
        cases hd
      · exact hchild

theorem Wf.insert {cache : Cache α} (h : cache.Wf) (k : Text) {v : Option (Cached α)}
    (hv : ∀ t ∈ (v.map Cached.child).getD [], cache.Fits t) : Wf (cache.insert k v) := by
  have hkeys : ∀ d ∈ cache, d ∈ cache.insert k v := fun d hd => (AList.mem_insert cache).2 (.inr hd)
  refine wf_iff.2 fun w t ht => ?_
  rcases eq_or_ne w k with rfl | hne
  · rw [childNodes_insert] at ht
    exact (hv t ht).mono hkeys
  · rw [childNodes_insert_ne hne] at ht
    exact (wf_iff.1 h w t ht).mono hkeys

end Cache

namespace Search

variable {s : Search α}

/-- What a call leaves: a cache of this form, with the keys it had, and a
node for it. -/
def Builds (cache : Cache α) (ts : List (Tree α)) (cache' : Cache α) : Prop :=
  cache'.Wf ∧ (∀ k ∈ cache, k ∈ cache') ∧ ∀ t ∈ ts, cache'.Fits t

theorem builds_subTrees {step : α → Option (Cache α) → Option (Tree α) × Option (Cache α)}
    (hstep : ∀ n cache, cache.Wf → ∃ r cache', step n (some cache) = (r, some cache') ∧
      Builds cache r.toList cache') (ns : List α) :
    ∀ cache, cache.Wf → ∃ ts cache', subTrees step ns (some cache) = (ts, some cache') ∧
      Builds cache ts cache' := by
  induction ns with
  | nil => intro cache h; exact ⟨[], cache, rfl, h, fun _ hk => hk, by simp⟩
  | cons n ns ih =>
    intro cache h
    obtain ⟨r, c₁, hr, hwf₁, hkeys₁, hfits₁⟩ := hstep n cache h
    obtain ⟨ts, c₂, hts, hwf₂, hkeys₂, hfits₂⟩ := ih c₁ hwf₁
    refine ⟨r.toList ++ ts, c₂, by simp only [subTrees, hr, hts], hwf₂,
      fun k hk => hkeys₂ k (hkeys₁ k hk), fun t ht => ?_⟩
    rcases List.mem_append.1 ht with ht | ht
    · exact (hfits₁ t ht).mono hkeys₂
    · exact hfits₂ t ht

/-- **`sub_tree` builds caches of this form.** -/
theorem builds_subTree (rest : ℕ) : ∀ (level : ℕ) (path : List Text) (n : α) (cache : Cache α),
    cache.Wf → ∃ r cache', s.subTree rest level path n (some cache) = (r, some cache') ∧
      Builds cache r.toList cache' := by
  -- a node that is not expanded
  have hleaf : ∀ (cache : Cache α), cache.Wf → ∀ n kind (b : Bool),
      Builds cache (if b then some (Tree.leaf n kind) else none : Option (Tree α)).toList cache := by
    intro cache h n kind b
    refine ⟨h, fun _ hk => hk, fun t ht => ?_⟩
    cases b with
    | true =>
      rw [if_pos rfl, Option.toList_some, List.mem_singleton] at ht
      exact .inr (by rw [ht]; exact ⟨rfl, rfl⟩)
    | false => simp at ht
  induction rest with
  | zero =>
    intro level path n cache h
    unfold subTree
    split
    · exact ⟨_, cache, rfl, hleaf cache h n _ true⟩
    · exact ⟨none, cache, rfl, h, fun _ hk => hk, by simp⟩
  | succ rest ih =>
    intro level path n cache h
    unfold subTree
    cases s.visit (rest + 1) path n with
    | skip => exact ⟨none, cache, rfl, h, fun _ hk => hk, by simp⟩
    | leaf matched kind => exact ⟨_, cache, rfl, hleaf cache h n kind matched⟩
    | expand matched nodeId child =>
      simp only [Option.bind_some, Option.map_some]
      have hmem : ∀ (c : Cache α) v, s.uniqueName n ∈ c.insert (s.uniqueName n) v := fun c v =>
        (AList.mem_insert c).2 (.inl rfl)
      have hold : ∀ (c : Cache α) v, ∀ k ∈ c, k ∈ c.insert (s.uniqueName n) v := fun c v k hk =>
        (AList.mem_insert c).2 (.inr hk)
      cases hlook : cache.lookup (s.uniqueName n) with
      | some v =>
        cases v with
        | none => exact ⟨none, cache, rfl, h, fun _ hk => hk, by simp⟩
        | some c =>
          refine ⟨_, _, rfl, h.insert _ fun t ht => ?_, hold _ _, fun t ht => .inl ?_⟩
          · refine Cache.wf_iff.1 h (s.uniqueName n) t ?_
            simpa [Cache.childNodes, hlook] using ht
          · rw [Option.toList_some, List.mem_singleton] at ht
            exact ⟨_, by rw [ht]; rfl, hmem _ _⟩
      | none =>
        obtain ⟨ts, cache', hts, hwf, hkeys, hfits⟩ :=
          builds_subTrees (fun m c hc => ih (level + 1) (nodeId :: path) m c hc) child cache h
        simp only [hts, Option.map_some]
        split_ifs
        · refine ⟨_, _, rfl, hwf.insert _ hfits, fun k hk => hold _ _ k (hkeys k hk),
            fun t ht => .inl ?_⟩
          rw [Option.toList_some, List.mem_singleton] at ht
          exact ⟨_, by rw [ht]; rfl, hmem _ _⟩
        · exact ⟨none, _, rfl, hwf.insert _ (by simp), fun k hk => hold _ _ k (hkeys k hk), by simp⟩

end Search

/-! ## Formats end -/

section FormatTree

variable {ν ε σ : Type} {prune : ν → σ → Option ℕ × σ} {getEntry : σ → ℕ → ν → Option ℕ → ε}
  {getChild : σ → ℕ → ν → Option (List ν)} {blank : ε → Bool}

theorem formatChildren_mono {step step' : ν → σ → Option (List (Line ε) × σ)}
    (h : ∀ c st r, step c st = some r → step' c st = some r) (cs : List ν) :
    ∀ st r, formatChildren blank step cs st = some r → formatChildren blank step' cs st = some r := by
  induction cs with
  | nil => intro st r hr; exact hr
  | cons c cs ih =>
    intro st r hr
    cases cs with
    | nil =>
      simp only [formatChildren, Option.bind_eq_bind, Option.bind_eq_some_iff] at hr ⊢
      obtain ⟨x, hx, hr⟩ := hr
      exact ⟨x, h c st x hx, hr⟩
    | cons c' cs =>
      simp only [formatChildren, Option.bind_eq_bind, Option.bind_eq_some_iff] at hr ⊢
      obtain ⟨x, hx, y, hy, hr⟩ := hr
      exact ⟨x, h c st x hx, y, ih _ _ hy, hr⟩

/-- More levels than enough change nothing. -/
theorem formatTree_mono {fuel fuel' : ℕ} (hle : fuel ≤ fuel') : ∀ {level : ℕ} {t : ν} {st : σ}
    {r : List (Line ε) × σ}, formatTree prune getEntry getChild blank fuel level t st = some r →
    formatTree prune getEntry getChild blank fuel' level t st = some r := by
  induction fuel generalizing fuel' with
  | zero => rintro level t st r ⟨⟩
  | succ fuel ih =>
    intro level t st r h
    obtain ⟨fuel', rfl⟩ : ∃ k, fuel' = k + 1 := ⟨fuel' - 1, by omega⟩
    simp only [formatTree, Option.bind_eq_bind, Option.bind_eq_some_iff] at h ⊢
    obtain ⟨child, hchild, x, hx, hr⟩ := h
    exact ⟨child, hchild, x, formatChildren_mono (fun c st r hc => ih (by omega) hc) _ _ _ hx, hr⟩

variable (prune getEntry getChild blank) in
/-- So many levels are enough for the node, whatever has been found
before. -/
def Ends (fuel : ℕ) (t : ν) : Prop :=
  ∀ level st, ∃ r, formatTree prune getEntry getChild blank fuel level t st = some r

theorem Ends.mono {fuel fuel' : ℕ} {t : ν} (h : Ends prune getEntry getChild blank fuel t)
    (hle : fuel ≤ fuel') : Ends prune getEntry getChild blank fuel' t := by
  intro level st
  obtain ⟨r, hr⟩ := h level st
  exact ⟨r, formatTree_mono hle hr⟩

theorem exists_formatChildren (blank : ε → Bool) {step : ν → σ → Option (List (Line ε) × σ)} (cs : List ν)
    (h : ∀ c ∈ cs, ∀ st, ∃ r, step c st = some r) :
    ∀ st, ∃ r, formatChildren blank step cs st = some r := by
  induction cs with
  | nil => intro st; exact ⟨_, rfl⟩
  | cons c cs ih =>
    intro st
    obtain ⟨⟨ls, st₁⟩, h₁⟩ := h c (by simp) st
    cases cs with
    | nil => exact ⟨_, by simp only [formatChildren, h₁]; rfl⟩
    | cons c' cs =>
      obtain ⟨⟨rest, st₂⟩, h₂⟩ := ih (fun d hd => h d (by simp [hd])) st₁
      exact ⟨_, by simp only [formatChildren, h₁, Option.bind_eq_bind, Option.bind_some, h₂]; rfl⟩

/-- A node takes one level more than its children. -/
theorem ends_succ {fuel : ℕ} {t : ν} (h : ∀ level st, ∃ cs, getChild st level t = some cs ∧
    ∀ c ∈ cs, Ends prune getEntry getChild blank fuel c) :
    Ends prune getEntry getChild blank (fuel + 1) t := by
  intro level st
  obtain ⟨cs, hcs, hends⟩ := h level (prune t st).2
  obtain ⟨x, hx⟩ := exists_formatChildren blank cs
    (fun c hc st => hends c hc (level + 1) st) (prune t st).2
  exact ⟨_, by simp only [formatTree, hcs, Option.bind_eq_bind, Option.bind_some, hx]; rfl⟩

/-- A node without a result below it. -/
theorem formatTree_eq_none {fuel level : ℕ} {t c : ν} {i : Option ℕ} {st st' : σ}
    (hprune : prune t st = (i, st')) (hchild : getChild st' level t = some [c])
    (hc : formatTree prune getEntry getChild blank fuel (level + 1) c st' = none) :
    formatTree prune getEntry getChild blank (fuel + 1) level t st = none := by
  simp only [formatTree, hprune, hchild, Option.bind_eq_bind, Option.bind_some, formatChildren, hc,
    Option.bind_none]

end FormatTree

namespace Cache

/-- The children a callback returns for a key are among those the cache
holds. -/
structure Follows {σ : Type} (cache : Cache α) (getChild : σ → ℕ → Tree α → Option (List (Tree α))) :
    Prop where
  keyed : ∀ st level t k, t.cacheKey = some k → k ∈ cache →
    ∃ cs, getChild st level t = some cs ∧ cs ⊆ cache.childNodes k
  plain : ∀ st level t, t.cacheKey = none → getChild st level t = some t.child

variable {cache : Cache α}

theorem follows_getChildPruned : cache.Follows cache.getChildPruned where
  keyed := by
    intro st level t k hkey hk
    obtain ⟨v, hv⟩ := AList.lookup_isSome.2 hk |> Option.isSome_iff_exists.1
    unfold getChildPruned
    simp only [hkey, hv, Option.map_some]
    split_ifs
    · exact ⟨[], rfl, by simp⟩
    · exact ⟨_, rfl, List.Subset.refl _⟩
  plain := by
    intro st level t hkey
    simp only [getChildPruned, hkey]

theorem follows_getChildCommon : cache.Follows cache.getChildCommon where
  keyed := by
    intro st level t k hkey hk
    obtain ⟨v, hv⟩ := AList.lookup_isSome.2 hk |> Option.isSome_iff_exists.1
    unfold getChildCommon
    simp only [hkey, hv]
    split_ifs
    · exact ⟨[], rfl, by simp⟩
    · exact ⟨_, rfl, List.Subset.refl _⟩
  plain := by
    intro st level t hkey
    simp only [getChildCommon, hkey]

section Ends

variable {ε σ : Type} {prune : Tree α → σ → Option ℕ × σ}
  {getEntry : σ → ℕ → Tree α → Option ℕ → ε}
  {getChild : σ → ℕ → Tree α → Option (List (Tree α))} {blank : ε → Bool}

/-- **The references on a path are distinct keys.** -/
theorem ends_of_key (hwf : cache.Wf) (hacyclic : cache.Acyclic) (hfollows : cache.Follows getChild)
    {t : Tree α} {k : Text} (hkey : t.cacheKey = some k) (hk : k ∈ cache) :
    Ends prune getEntry getChild blank (cache.keys.toFinset.card + 2) t := by
  refine Loops.levels_of_acyclic (K := cache.keys.toFinset)
    (P := fun n k => ∀ t : Tree α, t.cacheKey = some k → k ∈ cache →
      Ends prune getEntry getChild blank (n + 1) t)
    (fun a b hab => List.mem_toFinset.2 (mem_of_edge hab)) hacyclic ?_ k t hkey hk
  intro n k ih t hkey hk
  refine ends_succ fun level st => ?_
  obtain ⟨cs, hcs, hsub⟩ := hfollows.keyed st level t k hkey hk
  refine ⟨cs, hcs, fun c hc => ?_⟩
  cases hckey : c.cacheKey with
  | none =>
    -- a leaf
    refine ends_succ fun level st => ⟨c.child, hfollows.plain st level c hckey, ?_⟩
    rw [hwf.leaves k c (hsub hc) hckey]
    simp
  | some d =>
    have hedge : cache.Edge k d := List.mem_filterMap.2 ⟨c, hsub hc, hckey⟩
    exact ih d hedge c hckey (hwf.keys k c (hsub hc) d hckey)

/-- **Every tree over an acyclic cache is printed to its end.** -/
theorem exists_ends (hwf : cache.Wf) (hacyclic : cache.Acyclic) (hfollows : cache.Follows getChild)
    {t : Tree α} (ht : cache.Over t) : ∃ n, Ends prune getEntry getChild blank n t := by
  induction ht with
  | @keyed t k hkey hk =>
    exact ⟨_, ends_of_key hwf hacyclic hfollows hkey hk⟩
  | @plain t hkey _ ih =>
    -- the most that any of the children takes
    have hbound : ∀ cs : List (Tree α), (∀ c ∈ cs, ∃ n, Ends prune getEntry getChild blank n c) →
        ∃ n, ∀ c ∈ cs, Ends prune getEntry getChild blank n c := by
      intro cs
      induction cs with
      | nil => intro _; exact ⟨0, by simp⟩
      | cons c cs ihcs =>
        intro h
        obtain ⟨n₁, h₁⟩ := h c (by simp)
        obtain ⟨n₂, h₂⟩ := ihcs fun d hd => h d (by simp [hd])
        refine ⟨max n₁ n₂, fun d hd => ?_⟩
        rcases List.mem_cons.1 hd with rfl | hd
        · exact h₁.mono (le_max_left _ _)
        · exact (h₂ d hd).mono (le_max_right _ _)
    obtain ⟨n, hn⟩ := hbound t.child ih
    exact ⟨n + 1, ends_succ fun level st => ⟨t.child, hfollows.plain st level t hkey, hn⟩⟩

end Ends

/-! ## `remove_all_loops` -/

/-- What the cuts leave of the children of each key. -/
def KeepsOnly (cache cache' : Cache α) : Prop :=
  ∀ k, cache'.childNodes k =
    (cache.childNodes k).filter fun t => t.cacheKey.all ((cache'.childKeys k).contains ·)

theorem keepsOnly_refl (cache : Cache α) : KeepsOnly cache cache := by
  intro k
  refine (List.filter_eq_self.2 fun t ht => ?_).symm
  cases hkey : t.cacheKey with
  | none => rfl
  | some d => simpa [childKeys, List.mem_filterMap] using ⟨t, ht, hkey⟩

theorem KeepsOnly.removeChild {cache' : Cache α} (h : KeepsOnly cache cache') (u c : Text) :
    KeepsOnly cache (cache'.removeChild u c) := by
  intro k
  rcases eq_or_ne k u with rfl | hne
  · rw [childNodes_removeChild, h k, List.filter_filter]
    refine List.filter_congr fun t _ => ?_
    cases t.cacheKey with
    | none => rfl
    | some d =>
      have hmem : d ∈ (cache'.removeChild k c).childKeys k ↔ _ := mem_childKeys_removeChild
      by_cases hd : d = c <;> simp_all
  · have hkeys : (cache'.removeChild u c).childKeys k = cache'.childKeys k := by
      rw [childKeys, childNodes_removeChild_ne hne, childKeys]
    rw [childNodes_removeChild_ne hne, h k, hkeys]

theorem mem_removeChild {k u c : Text} : k ∈ cache.removeChild u c ↔ k ∈ cache := by
  unfold Cache.removeChild
  split
  · rename_i n hn
    rw [AList.mem_insert]
    constructor
    · rintro (rfl | h)
      · exact AList.lookup_isSome.1 (by rw [hn]; rfl)
      · exact h
    · exact .inr
  · rfl

theorem Wf.of_keepsOnly {cache' : Cache α} (hwf : cache.Wf) (h : KeepsOnly cache cache')
    (hkeys : ∀ k, k ∈ cache' ↔ k ∈ cache) : cache'.Wf where
  keys := by
    intro k t ht d hd
    rw [h k] at ht
    exact (hkeys d).2 (hwf.keys k t (List.mem_of_mem_filter ht) d hd)
  leaves := by
    intro k t ht hkey
    rw [h k] at ht
    exact hwf.leaves k t (List.mem_of_mem_filter ht) hkey

/-- **Expanding the references of any tree over the cache ends**, whatever
is pruned. -/
def ExpansionEnds (cache : Cache α) : Prop :=
  ∀ (t : Tree α), cache.Over t → ∀ (common : Thresholds) (enablePrune : Bool)
    (printer : Printer α) (subtrees : Subtrees), ∃ n r, ∀ fuel, n ≤ fuel →
      cache.formatPrunedTree common printer fuel enablePrune t subtrees = some r

theorem expansionEnds_of_acyclic (hwf : cache.Wf) (hacyclic : cache.Acyclic) :
    cache.ExpansionEnds := by
  intro t ht common enablePrune printer subtrees
  obtain ⟨n, hn⟩ : ∃ n, Ends (cache.shouldPruneSubtree common enablePrune) treeEntry
      cache.getChildPruned printer.blank n t := exists_ends hwf hacyclic follows_getChildPruned ht
  obtain ⟨r, hr⟩ := hn 0 subtrees
  exact ⟨n, r, fun fuel hfuel => formatTree_mono hfuel hr⟩

/-- **`remove_all_loops` ends and leaves the cache acyclic**, whatever the
order of the keys; a child goes only with a key on a loop of the cache it
started from; and if children without a key are leaves, every expansion
ends then. -/
theorem removeAllLoops_acyclic {order : List Text} (horder : order.Perm cache.keys) :
    ∃ cache', (∀ fuel, cache.keys.length < fuel → cache.removeAllLoops fuel order = some cache') ∧
      cache'.Acyclic ∧ KeepsOnly cache cache' ∧
      (∀ k d, cache.Edge k d → ¬ cache'.Edge k d → ReflTransGen cache.Edge d k) ∧
      (cache.Wf → cache'.ExpansionEnds) := by
  obtain ⟨cache', hrun, hsub, hacyclic, honLoop⟩ := Loops.removeAllLoops_spec (G := graph)
    (g := cache) (K := cache.keys.toFinset)
    (fun a b hab => horder.mem_iff.2 (mem_of_edge hab))
    (fun a b hab => List.mem_toFinset.2 (mem_of_edge hab))
  have hcard : cache.keys.toFinset.card ≤ cache.keys.length := List.toFinset_card_le _
  have hone := hrun (cache.keys.length + 1) (by omega)
  have hkeeps : KeepsOnly cache cache' :=
    Loops.removeAllLoops_invariant (fun g u c hg => hg.removeChild u c) (keepsOnly_refl cache) hone
  have hkeys : ∀ k, k ∈ cache' ↔ k ∈ cache :=
    Loops.removeAllLoops_invariant (P := fun g => ∀ k, k ∈ g ↔ k ∈ cache)
      (fun g u c hg k => mem_removeChild.trans (hg k)) (fun _ => Iff.rfl) hone
  exact ⟨cache', fun fuel hfuel => hrun fuel (by omega), hacyclic, hkeeps, honLoop,
    fun hwf => expansionEnds_of_acyclic (hwf.of_keepsOnly hkeeps hkeys) hacyclic⟩

/-- Two nodes that refer to each other. -/
def loopCache : Cache Char :=
  List.toAList [⟨['a'], some ⟨'a', 2, 2, [.ref 'b' ['b'] 1 2, .leaf 'x' .deep]⟩⟩,
    ⟨['b'], some ⟨'b', 2, 2, [.ref 'a' ['a'] 1 2]⟩⟩]

theorem removeAllLoops_acyclic_loopCache : ∃ cache' : Cache Char,
    (∀ fuel, 2 < fuel → loopCache.removeAllLoops fuel [['b'], ['a']] = some cache') ∧
      cache'.Acyclic ∧ KeepsOnly loopCache cache' ∧
      (∀ k d, loopCache.Edge k d → ¬ cache'.Edge k d → ReflTransGen loopCache.Edge d k) ∧
      cache'.ExpansionEnds := by
  have hmem : ∀ k, ∀ t ∈ loopCache.childNodes k,
      t = .ref 'b' ['b'] 1 2 ∨ t = .leaf 'x' .deep ∨ t = .ref 'a' ['a'] 1 2 := by
    intro k t ht
    have hk : k ∈ [['a'], ['b']] := mem_of_mem_childNodes ht
    simp only [List.mem_cons, List.not_mem_nil, or_false] at hk
    rcases hk with rfl | rfl
    · rcases List.mem_cons.1 (show t ∈ [Tree.ref 'b' ['b'] 1 2, .leaf 'x' .deep] from ht) with h | h
      · exact .inl h
      · exact .inr (.inl (List.mem_singleton.1 h))
    · exact .inr (.inr (List.mem_singleton.1 (show t ∈ [Tree.ref 'a' ['a'] 1 2] from ht)))
  have hwf : loopCache.Wf := by
    refine ⟨fun k t ht d hd => ?_, fun k t ht _ => ?_⟩
    · rcases hmem k t ht with rfl | rfl | rfl <;> cases hd <;> decide
    · rcases hmem k t ht with rfl | rfl | rfl <;> rfl
  obtain ⟨cache', hrun, hacyclic, hkeeps, honLoop, hends⟩ :=
    @removeAllLoops_acyclic _ loopCache [['b'], ['a']] (by decide)
  exact ⟨cache', hrun, hacyclic, hkeeps, honLoop, hends hwf⟩

/-! ## A reference below a child without a key -/

/-- A node with a child that has no key, and below it a reference to the
node again. -/
def innerCache : Cache Char :=
  List.toAList [⟨['a'], some ⟨'a', 3, 1, [.node 'x' none 2 [.ref 'a' ['a'] 1 3]]⟩⟩]

theorem mem_childNodes_innerCache {k : Text} {t : Tree Char} (h : t ∈ innerCache.childNodes k) :
    t = .node 'x' none 2 [.ref 'a' ['a'] 1 3] := by
  obtain rfl : k = ['a'] :=
    List.mem_singleton.1 (show k ∈ [['a']] from mem_of_mem_childNodes h)
  exact List.mem_singleton.1 (show t ∈ [Tree.node 'x' none 2 [.ref 'a' ['a'] 1 3]] from h)

/-- There is no edge in it. -/
theorem acyclic_innerCache : innerCache.Acyclic := by
  intro k hk
  obtain ⟨d, hkd, -⟩ := TransGen.head'_iff.1 hk
  obtain ⟨t, ht, hkey⟩ := List.mem_filterMap.1 hkd
  rw [mem_childNodes_innerCache ht] at hkey
  cases hkey

theorem over_innerCache : innerCache.Over (.ref 'a' ['a'] 1 3) :=
  .keyed (k := ['a']) rfl (by decide)

/-- **The reference and the child are printed below each other for
ever.** -/
theorem formatPrunedTree_innerCache (printer : Printer Char) (enablePrune : Bool) (fuel : ℕ) :
    innerCache.formatPrunedTree ⟨3, 2⟩ printer fuel enablePrune (.ref 'a' ['a'] 1 3) [] = none := by
  have hprune : innerCache.shouldPruneSubtree ⟨3, 2⟩ enablePrune (.ref 'a' ['a'] 1 3) [] =
      (none, []) := by
    cases enablePrune <;> rfl
  have hboth : ∀ level, formatTree (innerCache.shouldPruneSubtree ⟨3, 2⟩ enablePrune) treeEntry
        innerCache.getChildPruned printer.blank fuel level (.ref 'a' ['a'] 1 3) [] = none ∧
      formatTree (innerCache.shouldPruneSubtree ⟨3, 2⟩ enablePrune) treeEntry
        innerCache.getChildPruned printer.blank fuel level
          (.node 'x' none 2 [.ref 'a' ['a'] 1 3]) [] = none := by
    induction fuel with
    | zero => exact fun _ => ⟨rfl, rfl⟩
    | succ fuel ih =>
      exact fun level => ⟨formatTree_eq_none hprune rfl (ih (level + 1)).2,
        formatTree_eq_none rfl rfl (ih (level + 1)).1⟩
  exact (hboth 0).1

/-- **Nothing is removed, and the expansion does not end.** -/
theorem not_expansionEnds_innerCache :
    innerCache.removeAllLoops 2 [['a']] = some innerCache ∧ innerCache.Acyclic ∧
      ¬ innerCache.ExpansionEnds := by
  refine ⟨rfl, acyclic_innerCache, fun hends => ?_⟩
  obtain ⟨n, r, hr⟩ := hends _ over_innerCache ⟨3, 2⟩ false ⟨fun t _ => [t.val], false⟩ []
  exact absurd ((formatPrunedTree_innerCache _ false n).symm.trans (hr n le_rfl)) (by simp)

end Cache

end Calltree

end CppEtudes
