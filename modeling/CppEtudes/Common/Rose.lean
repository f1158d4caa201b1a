import Mathlib.Data.List.Basic

/-!
# Ordered trees

Trees with any number of children in an order, the paths from the root of
a tree, and pruning: a node stays if it is wanted itself or a node below
it stays.
-/

namespace CppEtudes

/-- A tree with its children in their order. -/
inductive Rose (α : Type) where
  | node (val : α) (child : List (Rose α))

namespace Rose

variable {α : Type} {t u : Rose α} {p : List α}

def val : Rose α → α
  | node v _ => v

def child : Rose α → List (Rose α)
  | node _ cs => cs

/-- **Induction** over a tree: a node follows from its children. -/
theorem induct {motive : Rose α → Prop}
    (h : ∀ v cs, (∀ c ∈ cs, motive c) → motive (node v cs)) (t : Rose α) : motive t :=
  @Rose.rec α motive (fun cs => ∀ c ∈ cs, motive c) h (fun _ hc => nomatch hc)
    (fun _ _ iht ihts _ hc => (List.mem_cons.1 hc).elim (fun heq => heq ▸ iht) (ihts _)) t

/-! ## Paths -/

/-- **A path** from the root of a tree to the root of a tree below. -/
inductive Reaches : Rose α → List α → Rose α → Prop
  | here (t : Rose α) : Reaches t [t.val] t
  | down {v : α} {cs : List (Rose α)} {c u : Rose α} {p : List α} (hc : c ∈ cs)
      (h : Reaches c p u) : Reaches (node v cs) (v :: p) u

theorem Reaches.ne_nil (h : Reaches t p u) : p ≠ [] := by
  cases h <;> exact nofun

/-! ## Pruning -/

mutual

/-- The tree with the nodes that are wanted, and those above them. -/
def prune (wanted : α → Bool) : Rose α → Option (Rose α)
  | node v cs =>
    if wanted v || !(pruneAll wanted cs).isEmpty then some (node v (pruneAll wanted cs)) else none

def pruneAll (wanted : α → Bool) : List (Rose α) → List (Rose α)
  | [] => []
  | t :: ts => (prune wanted t).toList ++ pruneAll wanted ts

end

variable {wanted : α → Bool}

theorem pruneAll_eq (ts : List (Rose α)) : pruneAll wanted ts = ts.filterMap (prune wanted) := by
  induction ts with
  | nil => rfl
  | cons t ts ih =>
    rw [pruneAll, ih, List.filterMap_cons]
    rcases prune wanted t with - | t' <;> rfl

theorem prune_eq_some {v : α} {cs : List (Rose α)} (h : prune wanted (node v cs) = some t) :
    t = node v (cs.filterMap (prune wanted)) ∧ (wanted v = true ∨ t.child ≠ []) := by
  rw [prune, pruneAll_eq] at h
  split_ifs at h with hkeep
  obtain rfl := Option.some.inj h
  refine ⟨rfl, ?_⟩
  rwa [Bool.or_eq_true, Bool.not_eq_true', List.isEmpty_eq_false_iff] at hkeep

/-- **A leaf** of a pruned tree is wanted. -/
theorem wanted_of_prune {t' : Rose α} (h : prune wanted t = some t') (hu : Reaches t' p u)
    (hleaf : u.child = []) : wanted u.val = true := by
  induction t using induct generalizing t' p with
  | h v cs ih =>
    obtain ⟨rfl, hkeep⟩ := prune_eq_some h
    cases hu with
    | here => exact hkeep.resolve_right fun hne => hne hleaf
    | down hc hreach =>
      obtain ⟨c₀, hc₀, hprune⟩ := List.mem_filterMap.1 hc
      exact ih c₀ hc₀ hprune hreach

/-- **A path** of a pruned tree is one of the tree. -/
theorem Reaches.of_prune {t' : Rose α} (h : prune wanted t = some t') (hu : Reaches t' p u) :
    ∃ u', Reaches t p u' := by
  induction t using induct generalizing t' p with
  | h v cs ih =>
    obtain ⟨rfl, -⟩ := prune_eq_some h
    cases hu with
    | here => exact ⟨_, .here _⟩
    | down hc hreach =>
      obtain ⟨c₀, hc₀, hprune⟩ := List.mem_filterMap.1 hc
      obtain ⟨u', hu'⟩ := ih c₀ hc₀ hprune hreach
      exact ⟨u', .down hc₀ hu'⟩

/-- **A root over pruned children.** -/
theorem Reaches.of_pruneRoot {v : α} {cs : List (Rose α)}
    (h : (node v (cs.filterMap (prune wanted))).Reaches p u) :
    (∃ u', (node v cs).Reaches p u') ∧ (1 < p.length → u.child = [] → wanted u.val = true) := by
  cases h with
  | here => exact ⟨⟨_, .here _⟩, fun hlen => absurd hlen (Nat.lt_irrefl 1)⟩
  | down hc hreach =>
    obtain ⟨c₀, hc₀, hprune⟩ := List.mem_filterMap.1 hc
    obtain ⟨u', hu'⟩ := hreach.of_prune hprune
    exact ⟨⟨u', .down hc₀ hu'⟩, fun _ hleaf => wanted_of_prune hprune hreach hleaf⟩

end Rose

end CppEtudes
