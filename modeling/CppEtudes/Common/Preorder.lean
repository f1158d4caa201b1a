import CppEtudes.Common.Rose
import Mathlib.Data.List.Nodup
import Mathlib.Data.List.Infix
import Mathlib.Tactic.Common

/-!
# Trees in preorder

A tree as the list of its nodes in preorder, each with its depth, which
no other tree has (`preorder_injective`); the way down to its last node,
its spine; and a leaf put below a node of the spine, which comes last in
preorder. `Agrees` says that a tree is what its nodes' lists of children
say it is.
-/

namespace CppEtudes

namespace Rose

variable {α : Type}

/-! ## Preorder -/

mutual

/-- The nodes in preorder with their depths, the root at depth `d`. -/
def preorder (d : ℕ) : Rose α → List (ℕ × α)
  | node v cs => (d, v) :: preorderAll (d + 1) cs

def preorderAll (d : ℕ) : List (Rose α) → List (ℕ × α)
  | [] => []
  | t :: ts => preorder d t ++ preorderAll d ts

end

theorem preorderAll_eq (d : ℕ) (ts : List (Rose α)) : preorderAll d ts = ts.flatMap (preorder d) := by
  induction ts with
  | nil => rfl
  | cons t ts ih => rw [preorderAll, ih, List.flatMap_cons]

theorem preorder_node (d : ℕ) (v : α) (cs : List (Rose α)) :
    preorder d (node v cs) = (d, v) :: cs.flatMap (preorder (d + 1)) := by
  rw [preorder, preorderAll_eq]

/-- What follows the nodes of a tree at depth `d`: nothing, or a node not
below it. -/
def Ends (d : ℕ) (r : List (ℕ × α)) : Prop := ∀ x ∈ r.head?, x.1 ≤ d

theorem ends_nil (d : ℕ) : Ends d ([] : List (ℕ × α)) := fun _ hx => nomatch hx

theorem ends_flatMap {d : ℕ} {cs : List (Rose α)} {r : List (ℕ × α)} (h : Ends d r) :
    Ends (d + 1) (cs.flatMap (preorder (d + 1)) ++ r) := by
  intro x hx
  cases cs with
  | nil =>
    have hle := h x hx
    omega
  | cons c cs =>
    obtain ⟨v, cs'⟩ := c
    rw [List.flatMap_cons, preorder_node] at hx
    obtain rfl := Option.some.inj hx
    exact Nat.le_refl _

theorem not_ends_cons {d : ℕ} (c : Rose α) (cs : List (Rose α)) (r : List (ℕ × α)) :
    ¬ Ends d ((c :: cs).flatMap (preorder (d + 1)) ++ r) := by
  obtain ⟨v, cs'⟩ := c
  intro h
  have hle := h (d + 1, v) (by rw [List.flatMap_cons, preorder_node]; rfl)
  omega

/-- The same for the children of a node, one after the other. -/
theorem flatMap_preorder_injective {d : ℕ} {cs : List (Rose α)}
    (hcs : ∀ c ∈ cs, ∀ {t' : Rose α} {r r' : List (ℕ × α)}, Ends (d + 1) r → Ends (d + 1) r' →
      preorder (d + 1) c ++ r = preorder (d + 1) t' ++ r' → c = t' ∧ r = r') :
    ∀ {cs' : List (Rose α)} {r r' : List (ℕ × α)}, Ends d r → Ends d r' →
      cs.flatMap (preorder (d + 1)) ++ r = cs'.flatMap (preorder (d + 1)) ++ r' →
      cs = cs' ∧ r = r' := by
  induction cs with
  | nil =>
    intro cs' r r' hr hr' heq
    cases cs' with
    | nil => exact ⟨rfl, heq⟩
    | cons c' cs' =>
      obtain rfl : r = _ := heq
      exact absurd hr (not_ends_cons c' cs' r')
  | cons c cs ih =>
    intro cs' r r' hr hr' heq
    cases cs' with
    | nil =>
      obtain rfl : _ = r' := heq
      exact absurd hr' (not_ends_cons c cs r)
    | cons c' cs' =>
      rw [List.flatMap_cons, List.flatMap_cons, List.append_assoc, List.append_assoc] at heq
      obtain ⟨rfl, hrest⟩ := hcs c List.mem_cons_self (ends_flatMap hr) (ends_flatMap hr') heq
      obtain ⟨rfl, rfl⟩ := ih (fun x hx => hcs x (List.mem_cons_of_mem _ hx)) hr hr' hrest
      exact ⟨rfl, rfl⟩

theorem preorder_append_injective (t : Rose α) : ∀ {d : ℕ} {t' : Rose α} {r r' : List (ℕ × α)},
    Ends d r → Ends d r' → preorder d t ++ r = preorder d t' ++ r' → t = t' ∧ r = r' := by
  induction t using induct with
  | h v cs ih =>
    rintro d ⟨v', cs'⟩ r r' hr hr' heq
    rw [preorder_node, preorder_node, List.cons_append, List.cons_append, List.cons.injEq] at heq
    obtain ⟨hv, htail⟩ := heq
    obtain ⟨rfl, rfl⟩ := flatMap_preorder_injective (fun c hc => ih c hc) hr hr' htail
    exact ⟨by rw [(Prod.mk.inj hv).2], rfl⟩

/-- **A tree is determined by its preorder.** -/
theorem preorder_injective {d : ℕ} {t t' : Rose α} (h : preorder d t = preorder d t') : t = t' :=
  (preorder_append_injective t (ends_nil d) (ends_nil d) (congrArg (· ++ []) h)).1

/-! ## Walks -/

mutual

/-- The nodes in preorder, each with the way down to it from below the
root: for every node on the way whether it is a last child. -/
def walk (path : List Bool) : Rose α → List (List Bool × Rose α)
  | node v cs => (path, node v cs) :: walkAll path cs

def walkAll (path : List Bool) : List (Rose α) → List (List Bool × Rose α)
  | [] => []
  | [t] => walk (path ++ [true]) t
  | t :: t' :: ts => walk (path ++ [false]) t ++ walkAll path (t' :: ts)

end

/-- **A walk is the preorder**, the depth of a node being the length of the
way down to it. -/
theorem map_walk (t : Rose α) : ∀ path : List Bool,
    (t.walk path).map (fun x => (x.1.length, x.2.val)) = t.preorder path.length := by
  induction t using induct with
  | h v cs ih =>
    intro path
    have hall : (walkAll path cs).map (fun x => (x.1.length, x.2.val)) =
        cs.flatMap (preorder (path.length + 1)) := by
      induction cs with
      | nil => rfl
      | cons c cs ihcs =>
        have hc := ih c List.mem_cons_self
        have hcs := ihcs fun x hx => ih x (List.mem_cons_of_mem _ hx)
        cases cs with
        | nil => rw [walkAll, hc, List.length_append, List.flatMap_singleton]; rfl
        | cons c' cs =>
          rw [walkAll, List.map_append, hc, hcs, List.length_append, List.flatMap_cons]
          rfl
    rw [walk, List.map_cons, hall, preorder_node]
    rfl

/-- A walk that starts further down. -/
theorem walk_append (p : List Bool) (t : Rose α) : ∀ q : List Bool,
    t.walk (p ++ q) = (t.walk q).map fun x => (p ++ x.1, x.2) := by
  induction t using induct with
  | h v cs ih =>
    intro q
    have hall : walkAll (p ++ q) cs = (walkAll q cs).map fun x => (p ++ x.1, x.2) := by
      induction cs with
      | nil => rfl
      | cons c cs ihcs =>
        have hc := ih c List.mem_cons_self
        have hcs := ihcs fun x hx => ih x (List.mem_cons_of_mem _ hx)
        cases cs with
        | nil => rw [walkAll, walkAll, List.append_assoc, hc]
        | cons c' cs =>
          rw [walkAll, walkAll, List.append_assoc, hc, hcs, List.map_append]
    rw [walk, walk, hall, List.map_cons]

theorem ne_nil_of_mem_walkAll {path : List Bool} {cs : List (Rose α)} {x : List Bool × Rose α}
    (h : x ∈ walkAll path cs) : x.1 ≠ [] := by
  have hwalk : ∀ (b : Bool) (t : Rose α), x ∈ t.walk (path ++ [b]) → x.1 ≠ [] := by
    intro b t hx
    have heq := walk_append (path ++ [b]) t []
    rw [List.append_nil] at heq
    rw [heq] at hx
    obtain ⟨y, -, rfl⟩ := List.mem_map.1 hx
    simp
  induction cs with
  | nil => cases h
  | cons c cs ih =>
    cases cs with
    | nil => exact hwalk true c h
    | cons c' cs =>
      rcases List.mem_append.1 h with h | h
      · exact hwalk false c h
      · exact ih h

theorem walkAll_eq_nil {path : List Bool} {cs : List (Rose α)} : walkAll path cs = [] ↔ cs = [] := by
  match cs with
  | [] => simp [walkAll]
  | [node v _] => simp [walkAll, walk]
  | node v _ :: c' :: cs => simp [walkAll, walk]

/-! ## The spine -/

mutual

/-- The nodes from the root down to the last one in preorder. -/
def spine : Rose α → List α
  | node v cs => v :: spineAll cs

def spineAll : List (Rose α) → List α
  | [] => []
  | [t] => spine t
  | _ :: t :: ts => spineAll (t :: ts)

end

theorem spineAll_concat (cs : List (Rose α)) (c : Rose α) : spineAll (cs ++ [c]) = spine c := by
  induction cs with
  | nil => rfl
  | cons b cs ih =>
    cases cs with
    | nil => rfl
    | cons b' cs => exact ih

theorem spine_leaf (v : α) : spine (node v []) = [v] := rfl

theorem spine_concat (v : α) (cs : List (Rose α)) (c : Rose α) :
    spine (node v (cs ++ [c])) = v :: spine c := by
  rw [spine, spineAll_concat]

/-- **Depths on the spine**: its nodes stand one below the other. -/
theorem mem_preorder_of_spine (t : Rose α) : ∀ {d k : ℕ} {v : α}, t.spine[k]? = some v →
    (d + k, v) ∈ t.preorder d := by
  induction t using induct with
  | h w cs ih =>
    intro d k v hk
    rw [preorder_node]
    cases k with
    | zero =>
      obtain rfl : w = v := by simpa [spine] using hk
      exact List.mem_cons_self
    | succ k =>
      rcases List.eq_nil_or_concat cs with rfl | ⟨cs, c, rfl⟩
      · simp [spine_leaf] at hk
      · rw [List.concat_eq_append, spine_concat, List.getElem?_cons_succ] at hk
        refine List.mem_cons_of_mem _ (List.mem_flatMap.2 ⟨c, by simp, ?_⟩)
        have hmem := ih c (by simp) (d := d + 1) hk
        rwa [Nat.add_right_comm] at hmem

/-! ## Grafting -/

/-- A leaf as the last child of the node at depth `k` of the spine. -/
def graft (x : α) : ℕ → Rose α → Rose α
  | 0, node v cs => node v (cs ++ [node x []])
  | k + 1, node v cs => node v (cs.dropLast ++ cs.getLast?.toList.map (graft x k))

theorem graft_concat (x : α) (k : ℕ) (v : α) (cs : List (Rose α)) (c : Rose α) :
    graft x (k + 1) (node v (cs ++ [c])) = node v (cs ++ [graft x k c]) := by
  rw [graft, List.dropLast_concat, List.getLast?_concat]
  rfl

theorem val_graft (x : α) (k : ℕ) (t : Rose α) : (graft x k t).val = t.val := by
  cases t with
  | node v cs => cases k <;> rfl

section Graft

variable {x : α} {k : ℕ} {t : Rose α}

/-- A node of the spine below the root is on the spine of the last child. -/
theorem exists_last_of_spine {v : α} {cs : List (Rose α)} (h : k + 1 < (node v cs).spine.length) :
    ∃ cs' c, cs = cs' ++ [c] ∧ k < c.spine.length := by
  rcases List.eq_nil_or_concat cs with rfl | ⟨cs, c, rfl⟩
  · simp [spine_leaf] at h
  · rw [List.concat_eq_append, spine_concat, List.length_cons] at h
    exact ⟨cs, c, List.concat_eq_append, by omega⟩

/-- **A grafted leaf comes last in preorder.** -/
theorem preorder_graft (h : k < t.spine.length) (d : ℕ) :
    (graft x k t).preorder d = t.preorder d ++ [(d + k + 1, x)] := by
  induction k generalizing t d with
  | zero =>
    obtain ⟨v, cs⟩ := t
    rw [graft, preorder_node, preorder_node, List.flatMap_append]
    rfl
  | succ k ih =>
    obtain ⟨v, cs⟩ := t
    obtain ⟨cs, c, rfl, hc⟩ := exists_last_of_spine h
    rw [graft_concat, preorder_node, preorder_node, List.flatMap_append, List.flatMap_append,
      List.flatMap_singleton, List.flatMap_singleton, ih hc, Nat.add_right_comm d 1 k,
      List.cons_append, List.append_assoc]
    rfl

theorem spine_graft (h : k < t.spine.length) :
    (graft x k t).spine = t.spine.take (k + 1) ++ [x] := by
  induction k generalizing t with
  | zero =>
    obtain ⟨v, cs⟩ := t
    rw [graft, spine_concat, spine]
    rfl
  | succ k ih =>
    obtain ⟨v, cs⟩ := t
    obtain ⟨cs, c, rfl, hc⟩ := exists_last_of_spine h
    rw [graft_concat, spine_concat, spine_concat, ih hc, List.take_succ_cons, List.cons_append]

end Graft

/-! ## Lists of children -/

/-- The tree is what the lists of children of its nodes say it is. -/
def Agrees (kids : α → List α) (t : Rose α) : Prop :=
  ∀ p u, t.Reaches p u → kids u.val = u.child.map val

section Agrees

variable {kids kids' : α → List α} {t : Rose α}

theorem agrees_node {v : α} {cs : List (Rose α)} :
    Agrees kids (node v cs) ↔ kids v = cs.map val ∧ ∀ c ∈ cs, Agrees kids c := by
  constructor
  · intro h
    exact ⟨h _ _ (.here _), fun c hc p u hu => h _ u (.down hc hu)⟩
  · rintro ⟨hv, hcs⟩ p u hu
    cases hu with
    | here => exact hv
    | down hc hu => exact hcs _ hc _ u hu

/-- The values of a tree, in preorder. -/
def vals (t : Rose α) : List α := (t.preorder 0).map Prod.snd

theorem map_snd_preorder (t : Rose α) : ∀ d, (t.preorder d).map Prod.snd = t.vals := by
  suffices h : ∀ d d', (t.preorder d).map Prod.snd = (t.preorder d').map Prod.snd from fun d => h d 0
  induction t using induct with
  | h v cs ih =>
    intro d d'
    simp only [preorder_node, List.map_cons, List.map_flatMap]
    congr 1
    exact List.flatMap_congr fun c hc => ih c hc _ _

theorem vals_node (v : α) (cs : List (Rose α)) : vals (node v cs) = v :: cs.flatMap vals := by
  rw [vals, preorder_node, List.map_cons, List.map_flatMap]
  simp only [map_snd_preorder]

theorem Reaches.val_mem_vals {u : Rose α} {p : List α} (h : t.Reaches p u) : u.val ∈ t.vals := by
  induction h with
  | here t =>
    obtain ⟨v, cs⟩ := t
    rw [vals_node]
    exact List.mem_cons_self
  | down hc _ ih =>
    rw [vals_node]
    exact List.mem_cons_of_mem _ (List.mem_flatMap.2 ⟨_, hc, ih⟩)

theorem length_vals_le {c : Rose α} {cs : List (Rose α)} (h : c ∈ cs) :
    c.vals.length ≤ (cs.flatMap vals).length := by
  rw [List.flatMap_def]
  exact (List.sublist_flatten_of_mem (List.mem_map_of_mem h)).length_le

/-- Lists of children of other nodes do not matter. -/
theorem Agrees.congr (h : Agrees kids t) (heq : ∀ v ∈ t.vals, kids' v = kids v) : Agrees kids' t := by
  induction t using induct with
  | h v cs ih =>
    rw [vals_node] at heq
    obtain ⟨hv, hcs⟩ := agrees_node.1 h
    refine agrees_node.2 ⟨by rw [heq v List.mem_cons_self, hv], fun c hc => ih c hc (hcs c hc) ?_⟩
    exact fun w hw => heq w (List.mem_cons_of_mem _ (List.mem_flatMap.2 ⟨c, hc, hw⟩))

theorem mem_vals_of_spine {k : ℕ} {v : α} (h : t.spine[k]? = some v) : v ∈ t.vals :=
  List.mem_map.2 ⟨_, mem_preorder_of_spine t h, rfl⟩

/-- **Grafting changes one list of children**: that of the node at depth
`k` of the spine, where the values of the tree are distinct. -/
theorem Agrees.graft {x top : α} {k : ℕ} (h : Agrees kids t) (hnodup : t.vals.Nodup)
    (hx : x ∉ t.vals) (htop : t.spine[k]? = some top) (hleaf : kids' x = [])
    (hkids : kids' top = kids top ++ [x]) (hothers : ∀ v, v ≠ x → v ≠ top → kids' v = kids v) :
    Agrees kids' (graft x k t) := by
  induction k generalizing t with
  | zero =>
    obtain ⟨v, cs⟩ := t
    obtain rfl : v = top := by simpa [spine] using htop
    rw [vals_node] at hnodup hx
    obtain ⟨hv, hcs⟩ := agrees_node.1 h
    refine agrees_node.2 ⟨by rw [hkids, hv, List.map_append]; rfl, fun c hc => ?_⟩
    rcases List.mem_append.1 hc with hc | hc
    · refine (hcs c hc).congr fun w hw => ?_
      have hmem : w ∈ cs.flatMap vals := List.mem_flatMap.2 ⟨c, hc, hw⟩
      exact hothers w (fun heq => hx (heq ▸ List.mem_cons_of_mem _ hmem))
        fun heq => (List.nodup_cons.1 hnodup).1 (heq ▸ hmem)
    · rw [List.mem_singleton.1 hc]
      exact agrees_node.2 ⟨hleaf, nofun⟩
  | succ k ih =>
    obtain ⟨v, cs⟩ := t
    obtain ⟨cs, c, rfl, -⟩ := exists_last_of_spine (List.getElem?_eq_some_iff.1 htop).1
    rw [spine_concat, List.getElem?_cons_succ] at htop
    have htopmem := mem_vals_of_spine htop
    rw [vals_node, List.flatMap_append, List.flatMap_singleton] at hnodup hx
    obtain ⟨hvnot, hnodup⟩ := List.nodup_cons.1 hnodup
    obtain ⟨-, hc, hdisjoint⟩ := List.nodup_append.1 hnodup
    obtain ⟨hv, hcs⟩ := agrees_node.1 h
    rw [graft_concat]
    refine agrees_node.2 ⟨?_, fun b hb => ?_⟩
    · rw [hothers v (fun heq => hx (heq ▸ List.mem_cons_self))
        (fun heq => hvnot (heq ▸ List.mem_append_right _ htopmem)), hv, List.map_append,
        List.map_append, List.map_singleton, List.map_singleton, val_graft]
    rcases List.mem_append.1 hb with hb | hb
    · -- the other children have no part in it
      refine (hcs b (List.mem_append_left _ hb)).congr fun w hw => ?_
      have hmem : w ∈ cs.flatMap vals := List.mem_flatMap.2 ⟨b, hb, hw⟩
      exact hothers w (fun heq => hx (heq ▸ List.mem_cons_of_mem _ (List.mem_append_left _ hmem)))
        (hdisjoint w hmem top htopmem)
    · rw [List.mem_singleton.1 hb]
      exact ih (hcs c (by simp)) hc
        (fun hmem => hx (List.mem_cons_of_mem _ (List.mem_append_right _ hmem))) htop

end Agrees

end Rose

end CppEtudes
