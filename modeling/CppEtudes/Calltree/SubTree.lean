import CppEtudes.Calltree.Model.SubTree

/-!
# `sub_tree` — what a cache keeps

The search without a cache returns the unfolding of the graph from the
start node, cut at the depth and at ids that repeat on a path, and
pruned to the places with a match below (`kept`). With a cache each
function is expanded once, wherever it is met first, and every later
place refers to that expansion. Where no later place keeps a function
that the first one does not (`walk`), nothing is lost by this
(`appears_of_walk`).
-/

namespace CppEtudes

namespace Calltree

variable {α : Type}

/-- What names a function: its `file_info` and its `name`. -/
abbrev Func := Text × Text

/-! ## What a tree shows -/

namespace Cache

/-- The children the cache holds for a key. -/
def children (cache : Cache α) (k : Text) : Option (Option (List (Tree α))) :=
  (cache.lookup k).map (Option.map Cached.child)

/-- The children of a node, once a `cache_key` is followed. -/
def expand (cache : Cache α) (t : Tree α) : List (Tree α) :=
  match t.cacheKey.bind cache.children with
  | some (some cs) => cs
  | _ => t.child

/-- Every key keeps its children. -/
def Extends (cache cache' : Cache α) : Prop :=
  ∀ k cs, cache.children k = some cs → cache'.children k = some cs

theorem Extends.refl (cache : Cache α) : cache.Extends cache := fun _ _ h => h

theorem Extends.trans {c₁ c₂ c₃ : Cache α} (h : c₁.Extends c₂) (h' : c₂.Extends c₃) :
    c₁.Extends c₃ := fun k cs hk => h' k cs (h k cs hk)

theorem children_insert (cache : Cache α) (k : Text) (v : Option (Cached α)) :
    children (cache.insert k v) k = some (v.map Cached.child) := by
  rw [children, AList.lookup_insert, Option.map_some]

theorem children_insert_ne {cache : Cache α} {k k' : Text} (h : k' ≠ k) (v : Option (Cached α)) :
    children (cache.insert k v) k' = cache.children k' := by
  rw [children, AList.lookup_insert_ne h, children]

/-- An entry under a new key, or one with the same children, keeps all
others. -/
theorem extends_insert {cache : Cache α} {k : Text} {v : Option (Cached α)}
    (h : ∀ cs, cache.children k = some cs → cs = v.map Cached.child) :
    cache.Extends (cache.insert k v) := by
  intro k' cs hk'
  rcases eq_or_ne k' k with rfl | hne
  · rw [children_insert, h cs hk']
  · rw [children_insert_ne hne, hk']

end Cache

namespace Search

variable (s : Search α)

def func (n : α) : Func := (s.fileInfo n, s.name n)

/-- The key of a function, as `uniqueName` makes it. -/
def keyOf (f : Func) : Text := f.1 ++ "::".toList ++ f.2

/-- **A function appears in a tree** at its root, or in a tree it shows
below. -/
inductive Appears (cache : Cache α) : Tree α → Func → Prop
  | here (t : Tree α) : Appears cache t (s.func t.val)
  | child {t c : Tree α} {f : Func} (hc : c ∈ cache.expand t) (h : Appears cache c f) :
      Appears cache t f

/-! ## The unfolding -/

/-- What the search sees from a node, before anything is pruned. -/
inductive Unfolding where
  | skip
  | leaf (f : Func) (matched : Bool)
  | expand (f : Func) (matched : Bool) (child : List Unfolding)

def unfolding : ℕ → List Text → α → Unfolding
  | 0, path, n =>
    match s.visit 0 path n with
    | .leaf matched _ => .leaf (s.func n) matched
    | _ => .skip
  | rest + 1, path, n =>
    match s.visit (rest + 1) path n with
    | .skip => .skip
    | .leaf matched _ => .leaf (s.func n) matched
    | .expand matched nodeId child =>
      .expand (s.func n) matched (child.map (unfolding rest (nodeId :: path)))

namespace Unfolding

mutual

/-- The functions at a place with a match at it or below it. -/
def kept : Unfolding → List Func
  | skip => []
  | leaf f matched => if matched then [f] else []
  | expand f matched child =>
    if matched || !(keptAll child).isEmpty then f :: keptAll child else []

def keptAll : List Unfolding → List Func
  | [] => []
  | u :: us => u.kept ++ keptAll us

end

theorem mem_keptAll {us : List Unfolding} {f : Func} : f ∈ keptAll us ↔ ∃ u ∈ us, f ∈ u.kept := by
  induction us with
  | nil => simp [keptAll]
  | cons u us ih => simp [keptAll, ih]

/-- An expanded place keeps itself, and what its children keep. -/
theorem mem_kept_expand {f g : Func} {matched : Bool} {child : List Unfolding} :
    g ∈ (expand f matched child).kept ↔
      (g = f ∧ (matched = true ∨ keptAll child ≠ [])) ∨ g ∈ keptAll child := by
  simp only [kept, Bool.or_eq_true, Bool.not_eq_true', List.isEmpty_eq_false_iff]
  split_ifs with h
  · simp [h]
  · have hnil : keptAll child = [] := by tauto
    simp_all

/-- The functions expanded so far, by their key, and what each kept. -/
abbrev Seen := AList fun _ : Text => Func × List Func

mutual

/-- **A walk through the unfolding that does not go below a function met
before.** It fails where such a function keeps more at its new place than
it did where it was met first, where two functions share a key, and
where a function is met below itself. -/
def walk (seen : Seen) : Unfolding → Option Seen
  | skip => some seen
  | leaf _ _ => some seen
  | expand f matched child =>
    match seen.lookup (keyOf f) with
    | some (f₀, ks) =>
      if f₀ = f ∧ (expand f matched child).kept ⊆ ks then some seen else none
    | none => do
      let seen' ← walkAll seen child
      if (seen'.lookup (keyOf f)).isSome then none
      else some (seen'.insert (keyOf f) (f, (expand f matched child).kept))

def walkAll (seen : Seen) : List Unfolding → Option Seen
  | [] => some seen
  | u :: us => do
    let seen' ← walk seen u
    walkAll seen' us

end

end Unfolding

/-! ## Without a cache -/

variable {s}

theorem expand_empty (t : Tree α) : Cache.expand (∅ : Cache α) t = t.child := by
  unfold Cache.expand Cache.children
  cases t.cacheKey <;> simp

theorem subTrees_none {step : α → Option (Cache α) → Option (Tree α) × Option (Cache α)}
    (ns : List α) (h : ∀ n ∈ ns, (step n none).2 = none) :
    subTrees step ns none = (ns.filterMap fun n => (step n none).1, none) := by
  induction ns with
  | nil => rfl
  | cons n ns ih =>
    have hn : step n none = ((step n none).1, none) := Prod.ext rfl (h n (by simp))
    rw [subTrees, hn]
    simp only [ih fun m hm => h m (by simp [hm])]
    rw [List.filterMap_cons]
    cases (step n none).1 <;> rfl

theorem subTree_none_snd (rest : ℕ) : ∀ (level : ℕ) (path : List Text) (n : α),
    (s.subTree rest level path n none).2 = none := by
  induction rest with
  | zero => intro level path n; unfold subTree; split <;> rfl
  | succ rest ih =>
    intro level path n
    unfold subTree
    split
    · rfl
    · rfl
    · simp only [Option.bind_none, subTrees_none _ fun m _ => ih _ _ m]
      split_ifs <;> rfl

section Visits

variable {rest level : ℕ} {path : List Text} {n : α} {matched : Bool} {kind : Leaf} {nodeId : Text}
variable {child : List α} {pruned : Option (Cache α)}

theorem visit_of_none (h : s.getIdAndChild n = none) : s.visit rest path n = .skip := by
  rw [visit, h]

theorem visit_of_some (h : s.getIdAndChild n = some (matched, nodeId, child)) :
    s.visit rest path n =
      if child.isEmpty then .leaf matched .outermost
      else if rest ≤ 1 then .leaf matched .deep
      else if nodeId ∈ path then .leaf matched .recursive
      else .expand matched nodeId child := by
  rw [visit, h]

theorem unfolding_of_skip (h : s.visit rest path n = .skip) : s.unfolding rest path n = .skip := by
  rcases rest with - | rest <;> rw [unfolding, h]

theorem unfolding_of_leaf (h : s.visit rest path n = .leaf matched kind) :
    s.unfolding rest path n = .leaf (s.func n) matched := by
  rcases rest with - | rest <;> rw [unfolding, h]

theorem subTree_of_skip (h : s.visit rest path n = .skip) :
    s.subTree rest level path n pruned = (none, pruned) := by
  rcases rest with - | rest <;> rw [subTree, h]

theorem subTree_of_leaf (h : s.visit rest path n = .leaf matched kind) :
    s.subTree rest level path n pruned = (if matched then some (.leaf n kind) else none, pruned) := by
  rcases rest with - | rest
  · rw [subTree, h]
    rcases matched with - | - <;> rfl
  · rw [subTree, h]

/-- The children that are returned to an expanded node. -/
theorem subTree_of_expand (h : s.visit (rest + 1) path n = .expand matched nodeId child)
    {childNodes : List (Tree α)}
    (hchild : childNodes =
      child.filterMap fun m => (s.subTree rest (level + 1) (nodeId :: path) m none).1) :
    (s.subTree (rest + 1) level path n none).1 =
      if !childNodes.isEmpty || matched || level == 0 then
        some (.node n none (heightOver childNodes) childNodes)
      else none := by
  rw [subTree, h]
  simp only [Option.bind_none, subTrees_none _ fun m _ => subTree_none_snd rest _ _ m,
    Option.map_none, ← hchild]
  split_ifs <;> rfl

end Visits

/-- A node that is not expanded is all that is shown at its place. -/
theorem kept_of_appears_leaf {rest level : ℕ} {path : List Text} {n : α} {matched : Bool}
    {kind : Leaf} (hvisit : s.visit rest path n = .leaf matched kind) {t : Tree α}
    (ht : (s.subTree rest level path n none).1 = some t) {f : Func} (hf : s.Appears ∅ t f) :
    f ∈ (s.unfolding rest path n).kept := by
  rw [subTree_of_leaf hvisit] at ht
  cases matched with
  | false => cases ht
  | true =>
    cases ht
    cases hf with
    | here =>
      rw [unfolding_of_leaf hvisit]
      simp [Unfolding.kept, Tree.val]
    | child hc _ => rw [expand_empty] at hc; cases hc

/-- **What the search returns without a cache**: the functions with a
match at their place or below it, and the start. -/
theorem kept_of_appears (rest : ℕ) : ∀ (level : ℕ) (path : List Text) (n : α) {t : Tree α},
    (s.subTree rest level path n none).1 = some t → ∀ {f : Func}, s.Appears ∅ t f →
    f ∈ (s.unfolding rest path n).kept ∨ (level = 0 ∧ f = s.func n) := by
  induction rest with
  | zero =>
    intro level path n t ht f hf
    rcases hvisit : s.visit 0 path n with _ | ⟨matched, kind⟩ | ⟨matched, nodeId, child⟩
    · rw [subTree_of_skip hvisit] at ht
      cases ht
    · exact .inl (kept_of_appears_leaf hvisit ht hf)
    · rw [subTree, hvisit] at ht
      cases ht
  | succ rest ih =>
    intro level path n t ht f hf
    rcases hvisit : s.visit (rest + 1) path n with _ | ⟨matched, kind⟩ | ⟨matched, nodeId, child⟩
    · rw [subTree_of_skip hvisit] at ht
      cases ht
    · exact .inl (kept_of_appears_leaf hvisit ht hf)
    · rw [subTree_of_expand hvisit rfl] at ht
      rw [unfolding, hvisit]
      dsimp only
      -- a child of the returned node is the result of a child of the node
      have hchild : ∀ c ∈ child.filterMap fun m =>
          (s.subTree rest (level + 1) (nodeId :: path) m none).1, ∀ {g : Func}, s.Appears ∅ c g →
          g ∈ Unfolding.keptAll (child.map (s.unfolding rest (nodeId :: path))) := by
        intro c hc g hg
        obtain ⟨m, hm, hmc⟩ := List.mem_filterMap.1 hc
        rcases ih (level + 1) (nodeId :: path) m hmc hg with hkept | ⟨h0, -⟩
        · exact Unfolding.mem_keptAll.2 ⟨_, List.mem_map.2 ⟨m, hm, rfl⟩, hkept⟩
        · omega
      split_ifs at ht with hkeep
      cases ht
      cases hf with
      | here =>
        by_cases h0 : level = 0
        · exact .inr ⟨h0, rfl⟩
        refine .inl (Unfolding.mem_kept_expand.2 (.inl ⟨rfl, ?_⟩))
        cases matched with
        | true => exact .inl rfl
        | false =>
          simp only [Bool.or_false, Bool.or_eq_true, Bool.not_eq_true', List.isEmpty_eq_false_iff,
            beq_iff_eq, h0, or_false] at hkeep
          obtain ⟨c, hc⟩ := List.exists_mem_of_ne_nil _ hkeep
          exact .inr (List.ne_nil_of_mem (hchild c hc (.here c)))
      | child hc hg =>
        rw [expand_empty] at hc
        exact .inl (Unfolding.mem_kept_expand.2 (.inr (hchild _ hc hg)))

/-! ## With a cache -/

section Cached

variable (s)

/-- **An entry shows what its function kept**, in this cache and in every
one that extends it. -/
def Shows (cache : Cache α) (cs : Option (List (Tree α))) (f₀ : Func) (ks : List Func) : Prop :=
  ∀ f ∈ ks, ∃ ts, cs = some ts ∧ ∀ cache', cache.Extends cache' →
    f = f₀ ∨ ∃ t ∈ ts, s.Appears cache' t f

/-- The cache holds the functions seen, and each entry shows what its
function kept. -/
structure Sound (cache : Cache α) (seen : Unfolding.Seen) : Prop where
  none_iff : ∀ k, cache.children k = none ↔ seen.lookup k = none
  shows : ∀ k cs f₀ ks, cache.children k = some cs → seen.lookup k = some (f₀, ks) →
    s.Shows cache cs f₀ ks

/-- **The outcome of a list of calls**, one after the other: the cache
grows, and the nodes returned show what the unfoldings keep. -/
structure Outcome (us : List Unfolding) (cache : Cache α) (ts : List (Tree α)) (cache' : Cache α)
    (seen' : Unfolding.Seen) : Prop where
  extends' : cache.Extends cache'
  sound : s.Sound cache' seen'
  shows : ∀ f ∈ Unfolding.keptAll us, ∀ cache'', cache'.Extends cache'' →
    ∃ t ∈ ts, s.Appears cache'' t f

variable {s} {cache cache' : Cache α} {seen seen' : Unfolding.Seen} {ts : List (Tree α)}

theorem Shows.mono {cs : Option (List (Tree α))} {f₀ : Func} {ks : List Func}
    (h : s.Shows cache cs f₀ ks) (hext : cache.Extends cache') : s.Shows cache' cs f₀ ks := by
  intro f hf
  obtain ⟨ts, hts, happ⟩ := h f hf
  exact ⟨ts, hts, fun cache'' hext' => happ cache'' (hext.trans hext')⟩

theorem sound_empty : s.Sound ∅ ∅ where
  none_iff := fun k => by simp [Cache.children]
  shows := fun k cs f₀ ks hk => by simp [Cache.children] at hk

/-- A node that is not expanded leaves the cache alone. -/
theorem outcome_of_not_expanded {u : Unfolding} {r : Option (Tree α)} (hsound : s.Sound cache seen)
    (hshows : ∀ f ∈ u.kept, ∃ t, r = some t ∧ s.func t.val = f) :
    s.Outcome [u] cache r.toList cache seen where
  extends' := .refl cache
  sound := hsound
  shows := by
    intro f hf cache'' _
    simp only [Unfolding.keptAll, List.append_nil] at hf
    obtain ⟨t, rfl, rfl⟩ := hshows f hf
    exact ⟨t, by simp, .here t⟩

/-- A node whose key is in the cache, with what it keeps among what its
function kept there. -/
theorem outcome_of_hit {n : α} {f₀ : Func} {ks : List Func} {u : Unfolding}
    {cs : Option (List (Tree α))} {r : Option (Tree α)} (hsound : s.Sound cache seen)
    (hsame : ∀ k, cache'.children k = cache.children k)
    (hcs : cache.children (s.uniqueName n) = some cs)
    (hseen : seen.lookup (s.uniqueName n) = some (f₀, ks)) (hf₀ : f₀ = s.func n)
    (hkept : u.kept ⊆ ks) (hr : cs.isSome → ∃ t, r = some t ∧ t.val = n ∧
      t.cacheKey = some (s.uniqueName n)) : s.Outcome [u] cache r.toList cache' seen := by
  have hext : cache.Extends cache' := fun k cs hk => (hsame k).trans hk
  refine ⟨hext, ⟨fun k => ?_, fun k cs f₀ ks hk hk' => ?_⟩, fun f hf cache'' hext'' => ?_⟩
  · rw [hsame k, hsound.none_iff k]
  · rw [hsame k] at hk
    exact (hsound.shows k cs f₀ ks hk hk').mono hext
  · simp only [Unfolding.keptAll, List.append_nil] at hf
    obtain ⟨ts, rfl, happ⟩ := hsound.shows _ _ _ _ hcs hseen f (hkept hf)
    obtain ⟨t, rfl, hval, hkey⟩ := hr rfl
    refine ⟨t, by simp, ?_⟩
    rcases happ cache'' (hext.trans hext'') with rfl | ⟨t', ht', happ'⟩
    · rw [hf₀, ← hval]
      exact .here t
    · refine .child ?_ happ'
      have hlook := hext'' _ _ ((hsame _).trans hcs)
      simpa only [Cache.expand, hkey, Option.bind_some, hlook] using ht'

/-- **An expanded node goes into the cache under a key that is new.** -/
theorem outcome_of_install {n : α} {matched : Bool} {us : List Unfolding} {r : Option (Tree α)}
    {v : Option (Cached α)} (h : s.Outcome us cache ts cache' seen')
    (hnew : seen'.lookup (s.uniqueName n) = none) (hv : v.map Cached.child = r.map fun _ => ts)
    (hr : (Unfolding.expand (s.func n) matched us).kept ≠ [] → r.isSome)
    (hkey : ∀ t, r = some t → t.val = n ∧ t.cacheKey = some (s.uniqueName n)) :
    s.Outcome [.expand (s.func n) matched us] cache r.toList (cache'.insert (s.uniqueName n) v)
      (seen'.insert (s.uniqueName n) (s.func n, (Unfolding.expand (s.func n) matched us).kept)) := by
  have hfresh := (h.sound.none_iff _).2 hnew
  have hext : cache'.Extends (cache'.insert (s.uniqueName n) v) :=
    Cache.extends_insert fun cs hcs => by rw [hfresh] at hcs; cases hcs
  -- what the node keeps is the node itself or in one of the nodes below it
  have hshown : ∀ f ∈ (Unfolding.expand (s.func n) matched us).kept, ∀ cache'',
      Cache.Extends (cache'.insert (s.uniqueName n) v) cache'' →
      f = s.func n ∨ ∃ t ∈ ts, s.Appears cache'' t f := by
    intro f hf cache'' hext''
    rcases Unfolding.mem_kept_expand.1 hf with ⟨rfl, -⟩ | hf
    · exact .inl rfl
    · exact .inr (h.shows f hf cache'' (hext.trans hext''))
  refine ⟨h.extends'.trans hext, ⟨fun k => ?_, fun k cs f₀ ks hk hk' => ?_⟩,
    fun f hf cache'' hext'' => ?_⟩
  · rcases eq_or_ne k (s.uniqueName n) with rfl | hne
    · simp [Cache.children_insert]
    · rw [Cache.children_insert_ne hne, AList.lookup_insert_ne hne, h.sound.none_iff k]
  · rcases eq_or_ne k (s.uniqueName n) with rfl | hne
    · rw [Cache.children_insert, Option.some.injEq] at hk
      rw [AList.lookup_insert, Option.some.injEq, Prod.mk.injEq] at hk'
      obtain ⟨rfl, rfl⟩ := hk'
      intro f hf
      obtain ⟨t, rfl⟩ := Option.isSome_iff_exists.1 (hr (List.ne_nil_of_mem hf))
      exact ⟨ts, by rw [← hk, hv, Option.map_some], hshown f hf⟩
    · rw [Cache.children_insert_ne hne] at hk
      rw [AList.lookup_insert_ne hne] at hk'
      exact (h.sound.shows k cs f₀ ks hk hk').mono hext
  · simp only [Unfolding.keptAll, List.append_nil] at hf
    obtain ⟨t, rfl⟩ := Option.isSome_iff_exists.1 (hr (List.ne_nil_of_mem hf))
    obtain ⟨hval, htkey⟩ := hkey t rfl
    refine ⟨t, by simp, ?_⟩
    rcases hshown f hf cache'' hext'' with rfl | ⟨t', ht', happ⟩
    · rw [← hval]
      exact .here t
    · refine .child ?_ happ
      have hlook : cache''.children (s.uniqueName n) = some (some ts) := by
        refine hext'' _ _ ?_
        rw [Cache.children_insert, hv, Option.map_some]
      simpa only [Cache.expand, htkey, Option.bind_some, hlook] using ht'

/-- The outcome of the loop, from those of its rounds. -/
theorem outcome_of_subTrees {u : α → Unfolding}
    {step : α → Option (Cache α) → Option (Tree α) × Option (Cache α)} (ns : List α)
    (hstep : ∀ n ∈ ns, ∀ cache seen seen', s.Sound cache seen → (u n).walk seen = some seen' →
      ∃ r cache', step n (some cache) = (r, some cache') ∧
        s.Outcome [u n] cache r.toList cache' seen') :
    ∀ cache seen seen', s.Sound cache seen → Unfolding.walkAll seen (ns.map u) = some seen' →
    ∃ ts cache', subTrees step ns (some cache) = (ts, some cache') ∧
      s.Outcome (ns.map u) cache ts cache' seen' := by
  induction ns with
  | nil =>
    intro cache seen seen' hsound hwalk
    simp only [List.map_nil, Unfolding.walkAll, Option.some.injEq] at hwalk
    subst hwalk
    exact ⟨[], cache, rfl, .refl cache, hsound, by simp [Unfolding.keptAll]⟩
  | cons n ns ih =>
    intro cache seen seen' hsound hwalk
    simp only [List.map_cons, Unfolding.walkAll, Option.bind_eq_bind,
      Option.bind_eq_some_iff] at hwalk
    obtain ⟨seen₁, hwalk₁, hwalk₂⟩ := hwalk
    obtain ⟨r, c₁, hr, hout⟩ := hstep n (by simp) cache seen seen₁ hsound hwalk₁
    obtain ⟨ts, c₂, hts, hout'⟩ := ih (fun m hm => hstep m (by simp [hm])) c₁ seen₁ seen'
      hout.sound hwalk₂
    refine ⟨r.toList ++ ts, c₂, by simp only [subTrees, hr, hts], hout.extends'.trans hout'.extends',
      hout'.sound, fun f hf cache'' hext => ?_⟩
    rw [List.map_cons, Unfolding.keptAll, List.mem_append] at hf
    rcases hf with hf | hf
    · obtain ⟨t, ht, happ⟩ := hout.shows f (by simpa [Unfolding.keptAll] using hf) cache''
        (hout'.extends'.trans hext)
      exact ⟨t, by simp [ht], happ⟩
    · obtain ⟨t, ht, happ⟩ := hout'.shows f hf cache'' hext
      exact ⟨t, by simp [ht], happ⟩

end Cached

/-! ## The search -/

theorem visit_zero_ne_expand {path : List Text} {n : α} {matched : Bool} {nodeId : Text}
    {child : List α} : s.visit 0 path n ≠ .expand matched nodeId child := by
  unfold visit
  split
  · rintro ⟨⟩
  · rw [if_pos (Nat.zero_le 1)]
    split_ifs <;> rintro ⟨⟩

section Run

variable {cache cache' : Cache α} {seen seen' : Unfolding.Seen}

theorem outcome_leaf {n : α} {matched : Bool} (kind : Leaf) (hsound : s.Sound cache seen) :
    s.Outcome [.leaf (s.func n) matched] cache
      (if matched then some (Tree.leaf n kind) else none : Option (Tree α)).toList cache seen := by
  refine outcome_of_not_expanded hsound fun f hf => ?_
  cases matched with
  | true =>
    simp only [Unfolding.kept, if_true, List.mem_singleton] at hf
    exact ⟨_, rfl, hf.symm⟩
  | false => simp [Unfolding.kept] at hf

/-- The node of an expansion is kept where its unfolding keeps anything. -/
theorem Outcome.keep {ts : List (Tree α)} {us : List Unfolding} {f : Func} {matched : Bool}
    (h : s.Outcome us cache ts cache' seen') (hne : (Unfolding.expand f matched us).kept ≠ []) :
    (!ts.isEmpty || matched) = true := by
  obtain ⟨g, hg⟩ := List.exists_mem_of_ne_nil _ hne
  simp only [Bool.or_eq_true, Bool.not_eq_true', List.isEmpty_eq_false_iff]
  have hall : Unfolding.keptAll us ≠ [] → ts ≠ [] := by
    intro hall
    obtain ⟨g, hg⟩ := List.exists_mem_of_ne_nil _ hall
    obtain ⟨t, ht, -⟩ := h.shows g hg cache' (.refl cache')
    exact List.ne_nil_of_mem ht
  rcases Unfolding.mem_kept_expand.1 hg with ⟨-, hm | hk⟩ | hk
  · exact .inr hm
  · exact .inl (hall hk)
  · exact .inl (hall (List.ne_nil_of_mem hk))

/-- The outcome where the node is not expanded. -/
theorem outcome_subTree_of_visit {rest level : ℕ} {path : List Text} {n : α}
    (hvisit : ∀ matched nodeId child, s.visit rest path n ≠ .expand matched nodeId child)
    (hsound : s.Sound cache seen) (hwalk : (s.unfolding rest path n).walk seen = some seen') :
    ∃ r cache', s.subTree rest level path n (some cache) = (r, some cache') ∧
      s.Outcome [s.unfolding rest path n] cache r.toList cache' seen' := by
  cases h : s.visit rest path n with
  | skip =>
    rw [unfolding_of_skip h] at hwalk ⊢
    obtain rfl := Option.some.inj hwalk
    exact ⟨none, cache, subTree_of_skip h,
      outcome_of_not_expanded hsound (by simp [Unfolding.kept])⟩
  | leaf matched kind =>
    rw [unfolding_of_leaf h] at hwalk ⊢
    obtain rfl := Option.some.inj hwalk
    exact ⟨_, cache, subTree_of_leaf h, outcome_leaf kind hsound⟩
  | expand matched nodeId child => exact absurd h (hvisit matched nodeId child)

/-- **Below the start the cache loses nothing** that the walk passes. -/
theorem outcome_subTree (rest : ℕ) : ∀ (level : ℕ) (path : List Text) (n : α)
    (cache : Cache α) (seen seen' : Unfolding.Seen), s.Sound cache seen →
    (s.unfolding rest path n).walk seen = some seen' →
    ∃ r cache', s.subTree rest (level + 1) path n (some cache) = (r, some cache') ∧
      s.Outcome [s.unfolding rest path n] cache r.toList cache' seen' := by
  induction rest with
  | zero =>
    intro level path n cache seen seen' hsound hwalk
    exact outcome_subTree_of_visit (fun _ _ _ => visit_zero_ne_expand) hsound hwalk
  | succ rest ih =>
    intro level path n cache seen seen' hsound hwalk
    cases hvisit : s.visit (rest + 1) path n with
    | skip => exact outcome_subTree_of_visit (by rw [hvisit]; rintro _ _ _ ⟨⟩) hsound hwalk
    | leaf matched kind =>
      exact outcome_subTree_of_visit (by rw [hvisit]; rintro _ _ _ ⟨⟩) hsound hwalk
    | expand matched nodeId child =>
      rw [subTree, hvisit]
      rw [unfolding, hvisit] at hwalk ⊢
      simp only [Unfolding.walk] at hwalk
      simp only [Option.bind_some, Option.map_some]
      cases hseen : seen.lookup (keyOf (s.func n)) with
      | some e =>
        -- met before: the walk has compared what is kept
        obtain ⟨f₀, ks⟩ := e
        simp only [hseen] at hwalk
        split_ifs at hwalk with hcond
        obtain rfl := Option.some.inj hwalk
        obtain ⟨hf₀, hkept⟩ := hcond
        have hex : cache.children (s.uniqueName n) ≠ none := by
          rw [Ne, hsound.none_iff, show seen.lookup (s.uniqueName n) = _ from hseen]
          simp
        cases hlook : cache.lookup (s.uniqueName n) with
        | none => exact absurd (by rw [Cache.children, hlook, Option.map_none]) hex
        | some v =>
          have hcs : cache.children (s.uniqueName n) = some (v.map Cached.child) := by
            rw [Cache.children, hlook, Option.map_some]
          cases v with
          | none =>
            exact ⟨none, cache, rfl, outcome_of_hit hsound (fun _ => rfl) hcs hseen hf₀ hkept
              (by simp)⟩
          | some c =>
            refine ⟨_, _, rfl, outcome_of_hit hsound (fun k => ?_) hcs hseen hf₀ hkept
              fun _ => ⟨_, rfl, rfl, rfl⟩⟩
            rcases eq_or_ne k (s.uniqueName n) with rfl | hne
            · rw [Cache.children_insert, hcs, Option.map_some, Option.map_some]
            · rw [Cache.children_insert_ne hne]
      | none =>
        simp only [hseen, Option.bind_eq_bind, Option.bind_eq_some_iff] at hwalk
        obtain ⟨seen₁, hwalk₁, hwalk₂⟩ := hwalk
        split_ifs at hwalk₂ with hnew
        obtain rfl := Option.some.inj hwalk₂
        rw [Bool.not_eq_true, Option.isSome_eq_false_iff, Option.isNone_iff_eq_none] at hnew
        have hlook : cache.lookup (s.uniqueName n) = none := by
          have := (hsound.none_iff _).2 hseen
          rwa [Cache.children, Option.map_eq_none_iff] at this
        obtain ⟨ts, cache', hts, hout⟩ := outcome_of_subTrees child (fun m _ c σ σ' hc hσ =>
          ih (level + 1) (nodeId :: path) m c σ σ' hc hσ) cache seen seen₁ hsound hwalk₁
        have hlevel : (level + 1 == 0) = false := rfl
        simp only [hlook, hts, Option.map_some, hlevel, Bool.or_false]
        split_ifs with hkeep
        · exact ⟨_, _, rfl, outcome_of_install hout hnew (r := some _) rfl (fun _ => rfl)
            (by rintro t ⟨⟩; exact ⟨rfl, rfl⟩)⟩
        · exact ⟨none, _, rfl, outcome_of_install hout hnew rfl
            (fun hne => absurd (hout.keep hne) hkeep) (by rintro t ⟨⟩)⟩

/-- **Where the walk passes, every function the search finds without a
cache appears in what it finds with one.** -/
theorem appears_of_walk {rest : ℕ} {n : α} (hwalk : ((s.unfolding rest [] n).walk ∅).isSome)
    {t : Tree α} (ht : (s.subTree rest 0 [] n none).1 = some t) {f : Func}
    (hf : s.Appears ∅ t f) :
    ∃ t' cache', s.subTree rest 0 [] n (some ∅) = (some t', some cache') ∧
      s.Appears cache' t' f := by
  have hkept := kept_of_appears rest 0 [] n ht hf
  -- at a leaf both searches return the same node
  have hleaf : ∀ kind, t = .leaf n kind → s.Appears ∅ (.leaf n kind) f := by
    rintro kind rfl
    exact hf
  cases rest with
  | zero =>
    unfold subTree at ht ⊢
    split at ht
    · rename_i kind _
      exact ⟨_, ∅, rfl, hleaf kind (Option.some.inj ht).symm⟩
    · cases ht
  | succ rest =>
    unfold subTree at ht ⊢
    unfold unfolding at hkept hwalk
    cases hvisit : s.visit (rest + 1) [] n with
    | skip => rw [hvisit] at ht; cases ht
    | leaf matched kind =>
      rw [hvisit] at ht
      simp only at ht ⊢
      split_ifs at ht ⊢ with hm
      exact ⟨_, ∅, rfl, hleaf kind (Option.some.inj ht).symm⟩
    | expand matched nodeId child =>
      obtain ⟨seen', hwalk⟩ := Option.isSome_iff_exists.1 hwalk
      simp only [hvisit, Unfolding.walk, AList.lookup_empty, Option.bind_eq_bind,
        Option.bind_eq_some_iff] at hwalk
      obtain ⟨seen₁, hwalk₁, hwalk₂⟩ := hwalk
      split_ifs at hwalk₂ with hnew
      rw [Bool.not_eq_true, Option.isSome_eq_false_iff, Option.isNone_iff_eq_none] at hnew
      obtain ⟨ts, cache', hts, hout⟩ := outcome_of_subTrees child (fun m _ c σ σ' hc hσ =>
        outcome_subTree rest 0 [nodeId] m c σ σ' hc hσ) ∅ ∅ seen₁ sound_empty hwalk₁
      have hinstall : s.Outcome [.expand (s.func n) matched (child.map (s.unfolding rest [nodeId]))]
          ∅ _ (cache'.insert (s.uniqueName n) (some ⟨n, heightOver ts, 1, ts⟩)) _ :=
        outcome_of_install (r := some (.node n (some (s.uniqueName n)) (heightOver ts) ts)) hout hnew
          rfl (fun _ => rfl) (by rintro t ⟨⟩; exact ⟨rfl, rfl⟩)
      simp only [Option.bind_some, AList.lookup_empty, hts, Option.map_some, beq_self_eq_true,
        Bool.or_true, if_true]
      refine ⟨_, _, rfl, ?_⟩
      rcases hkept with hkept | ⟨-, rfl⟩
      · obtain ⟨t', ht', happ⟩ := hinstall.shows f
          (by simpa [Unfolding.keptAll, hvisit] using hkept) _ (.refl _)
        rw [Option.toList_some, List.mem_singleton] at ht'
        exact ht' ▸ happ
      · exact .here (.node n _ _ _)

end Run

/-! ## Reading what a search shows -/

variable (s) in
mutual

/-- The functions of the nodes of a tree, references not followed. -/
def functions : Tree α → List Func
  | .leaf v _ => [s.func v]
  | .ref v _ _ _ => [s.func v]
  | .node v _ _ cs => s.func v :: functionsAll cs

def functionsAll : List (Tree α) → List Func
  | [] => []
  | t :: ts => functions t ++ functionsAll ts

end

theorem mem_functionsAll {ts : List (Tree α)} {f : Func} :
    f ∈ s.functionsAll ts ↔ ∃ t ∈ ts, f ∈ s.functions t := by
  induction ts with
  | nil => simp [functionsAll]
  | cons t ts ih => simp [functionsAll, ih]

theorem func_val_mem_functions (t : Tree α) : s.func t.val ∈ s.functions t := by
  cases t <;> simp [functions, Tree.val]

theorem functionsAll_child_subset (t : Tree α) : s.functionsAll t.child ⊆ s.functions t := by
  cases t <;> simp [functions, functionsAll, Tree.child]

variable (s) in
/-- The functions of the nodes of a result: of its tree and of its cache. -/
def shownFunctions : Option (Tree α) × Option (Cache α) → List Func
  | (t, cache) => s.functionsAll t.toList ++
      (cache.toList.flatMap fun c => c.entries.flatMap fun e =>
        s.functionsAll ((e.2.map Cached.child).getD []))

theorem Appears.mem_shownFunctions {t : Tree α} {cache : Cache α} {f : Func}
    (h : s.Appears cache t f) : f ∈ s.shownFunctions (some t, some cache) := by
  simp only [shownFunctions, Option.toList_some, List.flatMap_cons, List.flatMap_nil,
    List.append_nil, List.mem_append, List.mem_flatMap, mem_functionsAll, List.mem_singleton,
    exists_eq_left]
  induction h with
  | here t => exact .inl (func_val_mem_functions t)
  | @child t c f hc _ ih =>
    rcases ih with ih | ih
    · have hmem : f ∈ s.functionsAll (cache.expand t) := mem_functionsAll.2 ⟨c, hc, ih⟩
      unfold Cache.expand at hmem
      split at hmem
      · rename_i cs hcs
        obtain ⟨k, -, hk⟩ := Option.bind_eq_some_iff.1 hcs
        obtain ⟨v, hv, hchild⟩ := Option.map_eq_some_iff.1 hk
        obtain ⟨t', ht', hft⟩ := mem_functionsAll.1 hmem
        refine .inr ⟨⟨k, v⟩, AList.mem_lookup_iff.1 hv, t', ?_, hft⟩
        rw [hchild]
        exact ht'
      · exact .inl (functionsAll_child_subset t hmem)
    · exact .inr ih

end Search

end Calltree

end CppEtudes
