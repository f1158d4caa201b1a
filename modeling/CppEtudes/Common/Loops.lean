import Mathlib.Data.Finset.Card
import Mathlib.Logic.Relation
import Mathlib.Tactic.Common

/-!
# Cutting the loops of a graph

A depth-first search that knows only the path it is on, and cuts every
edge back to that path. It keeps no set of finished vertices, so a vertex
is searched again on every path to it, over the edges that are left.
From a finished vertex no walk leads back to the path that was searched
(`Cuts.noReturn`); run from every vertex, the search leaves no loop at
all, and it cuts no edge that did not lie on one (`search_spec`). That is
so whether the edges back are cut one by one between the searches of the
other successors (`removeAllLoops`), or all before the first of them
(`dropAllLoops`). Without loops a descent along the edges ends
(`levels_of_acyclic`).
-/

namespace CppEtudes

namespace Loops

open Relation

/-- A state that holds a graph, and can lose an edge of it. -/
structure Cutting (σ V : Type*) where
  succ : σ → V → List V
  cut : σ → V → V → σ
  mem_succ_cut : ∀ {g u c w d}, d ∈ succ (cut g u c) w ↔ d ∈ succ g w ∧ ¬ (w = u ∧ d = c)

variable {σ V : Type*} (G : Cutting σ V)

def Edge (g : σ) (a b : V) : Prop := b ∈ G.succ g a

/-- `g'` has no edge that `g` has not. -/
def Sub (g' g : σ) : Prop := ∀ a b, Edge G g' a b → Edge G g a b

variable {G}

theorem Sub.refl (g : σ) : Sub G g g := fun _ _ h => h

theorem Sub.trans {g g' g'' : σ} (h : Sub G g'' g') (h' : Sub G g' g) : Sub G g'' g :=
  fun a b hab => h' a b (h a b hab)

theorem Sub.transGen {g g' : σ} (h : Sub G g' g) {a b : V}
    (hab : TransGen (Edge G g') a b) : TransGen (Edge G g) a b := TransGen.mono h _ _ hab

theorem sub_cut (g : σ) (u c : V) : Sub G (G.cut g u c) g :=
  fun _ _ h => (G.mem_succ_cut.1 h).1

theorem not_edge_cut (g : σ) (u c : V) : ¬ Edge G (G.cut g u c) u c :=
  fun h => (G.mem_succ_cut.1 h).2 ⟨rfl, rfl⟩

/-! ## Loops of fallible rounds -/

/-- A loop runs through where every round does. -/
theorem exists_foldlM {step : σ → V → Option σ} {P : σ → Prop} (cs : List V)
    (hstep : ∀ c ∈ cs, ∀ g, P g → ∃ g', step g c = some g' ∧ P g') :
    ∀ g, P g → ∃ g', cs.foldlM step g = some g' ∧ P g' := by
  induction cs with
  | nil => intro g hg; exact ⟨g, rfl, hg⟩
  | cons c cs ih =>
    intro g hg
    obtain ⟨g₁, h₁, hg₁⟩ := hstep c (by simp) g hg
    obtain ⟨g₂, h₂, hg₂⟩ := ih (fun d hd => hstep d (by simp [hd])) g₁ hg₁
    exact ⟨g₂, by rw [List.foldlM_cons, h₁]; exact h₂, hg₂⟩

theorem foldlM_mono {step step' : σ → V → Option σ} (cs : List V)
    (hstep : ∀ g c g', step g c = some g' → step' g c = some g') :
    ∀ g g', cs.foldlM step g = some g' → cs.foldlM step' g = some g' := by
  induction cs with
  | nil => intro g g' h; exact h
  | cons c cs ih =>
    intro g g' h
    rw [List.foldlM_cons, Option.bind_eq_bind, Option.bind_eq_some_iff] at h ⊢
    obtain ⟨g₁, h₁, h₂⟩ := h
    exact ⟨g₁, hstep g c g₁ h₁, ih g₁ g' h₂⟩

theorem foldlM_invariant {step : σ → V → Option σ} {P : σ → Prop} (cs : List V)
    (hstep : ∀ g c g', P g → step g c = some g' → P g') :
    ∀ g g', P g → cs.foldlM step g = some g' → P g' := by
  induction cs with
  | nil => rintro g g' hg ⟨⟩; exact hg
  | cons c cs ih =>
    intro g g' hg h
    rw [List.foldlM_cons, Option.bind_eq_bind, Option.bind_eq_some_iff] at h
    obtain ⟨g₁, h₁, h₂⟩ := h
    exact ih g₁ g' (hstep g c g₁ hg h₁) h₂

/-! ## Paths without repetition -/

section Paths

variable [DecidableEq V]

/-- A path that grows by a new vertex of `K` leaves fewer of them. -/
theorem card_sdiff_cons_lt {K : Finset V} {path : List V} {v : V} (hK : v ∈ K) (hv : v ∉ path) :
    (K \ (v :: path).toFinset).card < (K \ path.toFinset).card := by
  refine Finset.card_lt_card (Finset.ssubset_iff_subset_ne.2 ⟨fun w hw => ?_, fun heq => ?_⟩)
  · simp only [Finset.mem_sdiff, List.mem_toFinset, List.mem_cons, not_or] at hw ⊢
    exact ⟨hw.1, hw.2.2⟩
  · have hmem : v ∈ K \ path.toFinset := by simp [hK, hv]
    rw [← heq] at hmem
    simp at hmem

/-- **A descent without loops ends**: what holds of a vertex with one
level more than its successors have, holds of every vertex with more
levels than there are vertices with an edge. -/
theorem levels_of_acyclic {r : V → V → Prop} {K : Finset V} (hK : ∀ a b, r a b → a ∈ K)
    (hacyclic : ∀ v, ¬ TransGen r v v) {P : ℕ → V → Prop}
    (hstep : ∀ n v, (∀ c, r v c → P n c) → P (n + 1) v) (v : V) : P (K.card + 1) v := by
  -- `path` is what was descended along
  have hpath : ∀ n (path : List V) v, (∀ p ∈ path, TransGen r p v) →
      (K \ path.toFinset).card < n → P n v := by
    intro n
    induction n with
    | zero => intro path v _ hcard; omega
    | succ n ih =>
      intro path v hpath hcard
      refine hstep n v fun c hvc => ih (v :: path) c (fun p hp => ?_) ?_
      · rcases List.mem_cons.1 hp with rfl | hp
        · exact .single hvc
        · exact (hpath p hp).tail hvc
      · have hnew : v ∉ path := fun h => hacyclic v (hpath v h)
        have hless := card_sdiff_cons_lt (hK v c hvc) hnew
        omega
  exact hpath (K.card + 1) [] v (by simp) (by simp)

end Paths

/-! ## The search -/

variable [DecidableEq V] (G)

/-- The search from `v`; `visited` is the path to it. -/
def removeLoop : ℕ → List V → V → σ → Option σ
  | 0, _, _, _ => none
  | fuel + 1, visited, v, g =>
    (G.succ g v).foldlM (fun g c =>
      if c ∈ v :: visited then some (G.cut g v c) else removeLoop fuel (v :: visited) c g) g

/-- The search from each of the vertices in turn. -/
def removeAllLoops (fuel : ℕ) (vs : List V) (g : σ) : Option σ :=
  vs.foldlM (fun g v => removeLoop G fuel [] v g) g

/-! ## What a search leaves -/

/-- **A search from `v` off the path**: it adds no edge, leaves no walk
from `v` back to the path, and cuts only edges on a loop of any graph
`g₀` in which the path leads to `v`. -/
structure Cuts (path : List V) (v : V) (g g' : σ) : Prop where
  sub : Sub G g' g
  noReturn : ∀ w ∈ v :: path, ¬ TransGen (Edge G g') v w
  onLoop : ∀ g₀, Sub G g g₀ → (∀ w ∈ v :: path, ReflTransGen (Edge G g₀) w v) →
    ∀ a b, Edge G g a b → ¬ Edge G g' a b → ReflTransGen (Edge G g₀) b a

/-- The rounds of the loop over the children of `v`, `q` being the path
with `v` on it. -/
structure CutsAll (q : List V) (v : V) (cs : List V) (g g' : σ) : Prop where
  sub : Sub G g' g
  back : ∀ c ∈ cs, c ∈ q → ¬ Edge G g' v c
  noReturn : ∀ c ∈ cs, c ∉ q → ∀ w ∈ q, ¬ TransGen (Edge G g') c w
  onLoop : ∀ g₀, Sub G g g₀ → (∀ c ∈ cs, Edge G g₀ v c) →
    (∀ w ∈ q, ReflTransGen (Edge G g₀) w v) →
    ∀ a b, Edge G g a b → ¬ Edge G g' a b → ReflTransGen (Edge G g₀) b a

variable {G}

/-- The invariant of the loop, from the searches of its rounds. -/
theorem cutsAll_of_foldlM {step : V → σ → Option σ} {q : List V} {v : V}
    (hstep : ∀ c g g', c ∉ q → step c g = some g' → Cuts G q c g g') (cs : List V) :
    ∀ g g', cs.foldlM (fun g c => if c ∈ q then some (G.cut g v c) else step c g) g = some g' →
    CutsAll G q v cs g g' := by
  induction cs with
  | nil =>
    rintro g g' ⟨⟩
    exact ⟨.refl g, by simp, by simp, fun _ _ _ _ a b h h' => absurd h h'⟩
  | cons c cs ih =>
    intro g g' h
    rw [List.foldlM_cons, Option.bind_eq_bind, Option.bind_eq_some_iff] at h
    obtain ⟨g₁, hfirst, hrest⟩ := h
    have hall := ih g₁ g' hrest
    by_cases hc : c ∈ q
    · rw [if_pos hc, Option.some.injEq] at hfirst
      subst hfirst
      refine ⟨hall.sub.trans (sub_cut g v c), fun d hd hq => ?_, fun d hd hq => ?_,
        fun g₀ hg₀ hedge hpath a b hab hab' => ?_⟩
      · rcases List.mem_cons.1 hd with rfl | hd
        · exact fun h => not_edge_cut g v d (hall.sub _ _ h)
        · exact hall.back d hd hq
      · rcases List.mem_cons.1 hd with rfl | hd
        · exact absurd hc hq
        · exact hall.noReturn d hd hq
      · by_cases hcut : Edge G (G.cut g v c) a b
        · exact hall.onLoop g₀ ((sub_cut g v c).trans hg₀) (fun d hd => hedge d (by simp [hd]))
            hpath a b hcut hab'
        · -- the edge cut in this round leads from `v` back to the path
          have hback : a = v ∧ b = c := by
            by_contra hne
            exact hcut (G.mem_succ_cut.2 ⟨hab, hne⟩)
          obtain ⟨rfl, rfl⟩ := hback
          exact hpath b hc
    · rw [if_neg hc] at hfirst
      have hcuts := hstep c g g₁ hc hfirst
      refine ⟨hall.sub.trans hcuts.sub, fun d hd hq => ?_, fun d hd hq w hw => ?_,
        fun g₀ hg₀ hedge hpath a b hab hab' => ?_⟩
      · rcases List.mem_cons.1 hd with rfl | hd
        · exact absurd hq hc
        · exact hall.back d hd hq
      · rcases List.mem_cons.1 hd with rfl | hd
        · exact fun h => hcuts.noReturn w (by simp [hw]) (hall.sub.transGen h)
        · exact hall.noReturn d hd hq w hw
      · by_cases hleft : Edge G g₁ a b
        · exact hall.onLoop g₀ (hcuts.sub.trans hg₀) (fun d hd => hedge d (by simp [hd])) hpath a b
            hleft hab'
        · refine hcuts.onLoop g₀ hg₀ (fun w hw => ?_) a b hab hleft
          rcases List.mem_cons.1 hw with rfl | hw
          · exact .refl
          · exact (hpath w hw).tail (hedge c (by simp))

omit [DecidableEq V] in
/-- The search is its loop over all successors. -/
theorem CutsAll.cuts {path : List V} {v : V} {g g' : σ}
    (hall : CutsAll G (v :: path) v (G.succ g v) g g') : Cuts G path v g g' := by
  refine ⟨hall.sub, fun w hw hwalk => ?_, fun g₀ hg₀ hpath => ?_⟩
  · -- a walk back starts with an edge of `v` that is left
    obtain ⟨c, hvc, hcw⟩ := TransGen.head'_iff.1 hwalk
    have hc : c ∈ G.succ g v := hall.sub v c hvc
    by_cases hq : c ∈ v :: path
    · exact hall.back c hc hq hvc
    · rcases reflTransGen_iff_eq_or_transGen.1 hcw with rfl | hcw
      · exact hq hw
      · exact hall.noReturn c hc hq w hw hcw
  · exact hall.onLoop g₀ hg₀ (fun c hc => hg₀ v c hc) hpath

theorem cuts_of_removeLoop (fuel : ℕ) : ∀ (path : List V) (v : V) (g g' : σ),
    removeLoop G fuel path v g = some g' → Cuts G path v g g' := by
  induction fuel with
  | zero => rintro path v g g' ⟨⟩
  | succ fuel ih =>
    intro path v g g' h
    exact (cutsAll_of_foldlM (fun c g g' _ hstep => ih (v :: path) c g g' hstep) _ g g' h).cuts

/-! ## It comes to an end -/

/-- **The path is never longer than the vertices with an edge**, so that
many levels are enough. -/
theorem exists_removeLoop {K : Finset V} (fuel : ℕ) : ∀ (path : List V) (v : V) (g : σ),
    (∀ a b, Edge G g a b → a ∈ K) → (K \ path.toFinset).card < fuel → v ∉ path →
    ∃ g', removeLoop G fuel path v g = some g' := by
  induction fuel with
  | zero => intro path v g _ hcard; omega
  | succ fuel ih =>
    intro path v g hK hcard hv
    by_cases hvK : v ∈ K
    · have hless := card_sdiff_cons_lt hvK hv
      have hround : ∀ c ∈ G.succ g v, ∀ g, (∀ a b, Edge G g a b → a ∈ K) →
          ∃ g', (if c ∈ v :: path then some (G.cut g v c) else removeLoop G fuel (v :: path) c g) =
            some g' ∧ ∀ a b, Edge G g' a b → a ∈ K := by
        intro c _ g hg
        by_cases hc : c ∈ v :: path
        · exact ⟨_, if_pos hc, fun a b hab => hg a b (sub_cut g v c a b hab)⟩
        · obtain ⟨g', hg'⟩ := ih (v :: path) c g hg (by omega) hc
          refine ⟨g', by rw [if_neg hc, hg'], fun a b hab => ?_⟩
          exact hg a b ((cuts_of_removeLoop fuel _ _ _ _ hg').sub a b hab)
      obtain ⟨g', hg', -⟩ := exists_foldlM _ hround g hK
      exact ⟨g', hg'⟩
    · -- a vertex without an edge
      have hnil : G.succ g v = [] := by
        by_contra hne
        obtain ⟨c, hc⟩ := List.exists_mem_of_ne_nil _ hne
        exact hvK (hK v c hc)
      exact ⟨g, by rw [removeLoop, hnil]; rfl⟩

/-- More levels than enough change nothing. -/
theorem removeLoop_mono {fuel : ℕ} : ∀ {path : List V} {v : V} {g g' : σ},
    removeLoop G fuel path v g = some g' → removeLoop G (fuel + 1) path v g = some g' := by
  induction fuel with
  | zero => rintro path v g g' ⟨⟩
  | succ fuel ih =>
    intro path v g g' h
    rw [removeLoop] at h ⊢
    refine foldlM_mono _ (fun g c g' hstep => ?_) g g' h
    split_ifs at hstep ⊢ with hc
    · exact hstep
    · exact ih hstep

/-! ## All vertices -/

omit [DecidableEq V] in
/-- What searches from a list of vertices leave. -/
theorem cuts_of_searches {search : V → σ → Option σ}
    (hcuts : ∀ v g g', search v g = some g' → Cuts G [] v g g') (vs : List V) : ∀ {g g' : σ},
    vs.foldlM (fun g v => search v g) g = some g' → Sub G g' g ∧
      (∀ v ∈ vs, ¬ TransGen (Edge G g') v v) ∧
      ∀ g₀, Sub G g g₀ → ∀ a b, Edge G g a b → ¬ Edge G g' a b → ReflTransGen (Edge G g₀) b a := by
  induction vs with
  | nil =>
    rintro g g' ⟨⟩
    exact ⟨.refl g, by simp, fun _ _ a b h h' => absurd h h'⟩
  | cons v vs ih =>
    intro g g' h
    rw [List.foldlM_cons, Option.bind_eq_bind, Option.bind_eq_some_iff] at h
    obtain ⟨g₁, hfirst, hrest⟩ := h
    have hcut := hcuts v g g₁ hfirst
    obtain ⟨hsub, hacyclic, honLoop⟩ := ih hrest
    refine ⟨hsub.trans hcut.sub, fun w hw => ?_, fun g₀ hg₀ a b hab hab' => ?_⟩
    · rcases List.mem_cons.1 hw with rfl | hw
      · exact fun h => hcut.noReturn w (by simp) (hsub.transGen h)
      · exact hacyclic w hw
    · by_cases hleft : Edge G g₁ a b
      · exact honLoop g₀ (hcut.sub.trans hg₀) a b hleft hab'
      · exact hcut.onLoop g₀ hg₀ (by simp [ReflTransGen.refl]) a b hab hleft

omit [DecidableEq V] in
/-- **Run from every vertex with an edge, a search ends, leaves no loop
and cuts only edges that lay on one.** -/
theorem search_spec (search : ℕ → V → σ → Option σ)
    (hcuts : ∀ fuel v g g', search fuel v g = some g' → Cuts G [] v g g')
    (hends : ∀ (K : Finset V) v g, (∀ a b, Edge G g a b → a ∈ K) →
      ∃ g', search (K.card + 1) v g = some g')
    (hmono : ∀ fuel v g g', search fuel v g = some g' → search (fuel + 1) v g = some g')
    {g : σ} {vs : List V} {K : Finset V} (hvs : ∀ a b, Edge G g a b → a ∈ vs)
    (hK : ∀ a b, Edge G g a b → a ∈ K) :
    ∃ g', (∀ fuel, K.card < fuel → vs.foldlM (fun g v => search fuel v g) g = some g') ∧
      Sub G g' g ∧ (∀ v, ¬ TransGen (Edge G g') v v) ∧
      ∀ a b, Edge G g a b → ¬ Edge G g' a b → ReflTransGen (Edge G g) b a := by
  have hround : ∀ v ∈ vs, ∀ g, (∀ a b, Edge G g a b → a ∈ K) →
      ∃ g', search (K.card + 1) v g = some g' ∧ ∀ a b, Edge G g' a b → a ∈ K := by
    intro v _ g hg
    obtain ⟨g', hg'⟩ := hends K v g hg
    exact ⟨g', hg', fun a b hab => hg a b ((hcuts _ _ _ _ hg').sub a b hab)⟩
  obtain ⟨g', hg', -⟩ := exists_foldlM vs hround g hK
  obtain ⟨hsub, hacyclic, honLoop⟩ := cuts_of_searches (hcuts (K.card + 1)) vs hg'
  refine ⟨g', fun fuel hfuel => ?_, hsub, fun v hv => ?_, honLoop g (.refl g)⟩
  · induction fuel, hfuel using Nat.le_induction with
    | base => exact hg'
    | succ fuel _ ih => exact foldlM_mono vs (fun g v g' h => hmono fuel v g g' h) g g' ih
  · obtain ⟨c, hvc, -⟩ := TransGen.head'_iff.1 hv
    exact hacyclic v (hvs v c (hsub v c hvc)) hv

theorem removeAllLoops_spec {g : σ} {vs : List V} {K : Finset V}
    (hvs : ∀ a b, Edge G g a b → a ∈ vs) (hK : ∀ a b, Edge G g a b → a ∈ K) :
    ∃ g', (∀ fuel, K.card < fuel → removeAllLoops G fuel vs g = some g') ∧ Sub G g' g ∧
      (∀ v, ¬ TransGen (Edge G g') v v) ∧
      ∀ a b, Edge G g a b → ¬ Edge G g' a b → ReflTransGen (Edge G g) b a :=
  search_spec (fun fuel v g => removeLoop G fuel [] v g)
    (fun fuel v g g' h => cuts_of_removeLoop fuel [] v g g' h)
    (fun K v g hg => exists_removeLoop (K.card + 1) [] v g hg (by simp) (by simp))
    (fun _ _ _ _ h => removeLoop_mono h) hvs hK

/-- **A property of the state that no cut ends** still holds after all of
them. -/
theorem removeAllLoops_invariant {P : σ → Prop} (hcut : ∀ g u c, P g → P (G.cut g u c))
    {fuel : ℕ} {vs : List V} {g g' : σ} (hg : P g) (h : removeAllLoops G fuel vs g = some g') :
    P g' := by
  have hloop : ∀ fuel path v g g', P g → removeLoop G fuel path v g = some g' → P g' := by
    intro fuel
    induction fuel with
    | zero => rintro path v g g' - ⟨⟩
    | succ fuel ih =>
      intro path v g g' hg h
      refine foldlM_invariant _ (fun g c g' hg hstep => ?_) g g' hg h
      split_ifs at hstep with hc
      · exact Option.some.inj hstep ▸ hcut g v c hg
      · exact ih _ c g g' hg hstep
  exact foldlM_invariant vs (fun g v g' hg hstep => hloop fuel [] v g g' hg hstep) g g' hg h

/-! ## Cutting ahead of the search -/

/-- A state that holds a graph, and can lose all edges from a vertex to
some others at once. -/
structure Dropping (σ V : Type*) where
  succ : σ → V → List V
  drop : σ → V → (V → Bool) → σ
  mem_succ_drop : ∀ {g u p w d}, d ∈ succ (drop g u p) w ↔ d ∈ succ g w ∧ ¬ (w = u ∧ p d = true)

variable (D : Dropping σ V)

def Dropping.toCutting : Cutting σ V where
  succ := D.succ
  cut g u c := D.drop g u (· == c)
  mem_succ_cut := by
    intro g u c w d
    rw [D.mem_succ_drop, beq_iff_eq]

/-- The search from `v` that drops all edges back to the path, and then
goes on from the successors that are left. -/
def dropLoop : ℕ → List V → V → σ → Option σ
  | 0, _, _, _ => none
  | fuel + 1, path, v, g =>
    (D.succ (D.drop g v (decide <| · ∈ v :: path)) v).foldlM
      (fun g c => dropLoop fuel (v :: path) c g) (D.drop g v (decide <| · ∈ v :: path))

def dropAllLoops (fuel : ℕ) (vs : List V) (g : σ) : Option σ :=
  vs.foldlM (fun g v => dropLoop D fuel [] v g) g

variable {D}

theorem sub_drop (g : σ) (u : V) (p : V → Bool) : Sub D.toCutting (D.drop g u p) g :=
  fun _ _ h => (D.mem_succ_drop.1 h).1

/-- The successors that are left are off the path. -/
theorem not_mem_of_mem_succ_drop {g : σ} {v c : V} {q : List V}
    (h : c ∈ D.succ (D.drop g v (decide <| · ∈ q)) v) : c ∉ q := by
  intro hc
  exact (D.mem_succ_drop.1 h).2 ⟨rfl, decide_eq_true hc⟩

/-- A round cuts nothing where the successor is off the path. -/
theorem foldlM_eq_foldlM_ite {step : V → σ → Option σ} {cut : σ → V → Option σ} {q : List V}
    (cs : List V) (hcs : ∀ c ∈ cs, c ∉ q) (g : σ) :
    cs.foldlM (fun g c => step c g) g =
      cs.foldlM (fun g c => if c ∈ q then cut g c else step c g) g := by
  induction cs generalizing g with
  | nil => rfl
  | cons c cs ih =>
    rw [List.foldlM_cons, List.foldlM_cons, if_neg (hcs c (by simp))]
    congr 1
    funext g'
    exact ih (fun d hd => hcs d (by simp [hd])) g'

/-- Edges back to the path may be dropped before a search. -/
theorem Cuts.of_drop {path : List V} {v : V} {g g' : σ}
    (h : Cuts D.toCutting path v (D.drop g v (decide <| · ∈ v :: path)) g') :
    Cuts D.toCutting path v g g' := by
  have hsub := sub_drop (D := D) g v (decide <| · ∈ v :: path)
  refine ⟨h.sub.trans hsub, h.noReturn, fun g₀ hg₀ hpath a b hab hab' => ?_⟩
  by_cases hleft : Edge D.toCutting (D.drop g v (decide <| · ∈ v :: path)) a b
  · exact h.onLoop g₀ (hsub.trans hg₀) hpath a b hleft hab'
  · have hback : a = v ∧ decide (b ∈ v :: path) = true := by
      by_contra hne
      exact hleft (D.mem_succ_drop.2 ⟨hab, hne⟩)
    obtain ⟨rfl, hb⟩ := hback
    exact hpath b (of_decide_eq_true hb)

theorem cuts_of_dropLoop (fuel : ℕ) : ∀ (path : List V) (v : V) (g g' : σ),
    dropLoop D fuel path v g = some g' → Cuts D.toCutting path v g g' := by
  induction fuel with
  | zero => rintro path v g g' ⟨⟩
  | succ fuel ih =>
    intro path v g g' h
    rw [dropLoop, foldlM_eq_foldlM_ite _ (fun c hc => not_mem_of_mem_succ_drop hc)] at h
    have hcuts : Cuts D.toCutting path v (D.drop g v (decide <| · ∈ v :: path)) g' :=
      (cutsAll_of_foldlM (fun c g g' _ hstep => ih (v :: path) c g g' hstep) _ _ g' h).cuts
    exact hcuts.of_drop

theorem exists_dropLoop {K : Finset V} (fuel : ℕ) : ∀ (path : List V) (v : V) (g : σ),
    (∀ a b, Edge D.toCutting g a b → a ∈ K) → (K \ path.toFinset).card < fuel → v ∉ path →
    ∃ g', dropLoop D fuel path v g = some g' := by
  induction fuel with
  | zero => intro path v g _ hcard; omega
  | succ fuel ih =>
    intro path v g hK hcard hv
    have hround : ∀ c ∈ D.succ (D.drop g v (decide <| · ∈ v :: path)) v, ∀ g,
        (∀ a b, Edge D.toCutting g a b → a ∈ K) →
        ∃ g', dropLoop D fuel (v :: path) c g = some g' ∧
          ∀ a b, Edge D.toCutting g' a b → a ∈ K := by
      intro c hc g₁ hg₁
      have hvK : v ∈ K := hK v c (sub_drop g v _ v c hc)
      have hless := card_sdiff_cons_lt hvK hv
      obtain ⟨g', hg'⟩ := ih (v :: path) c g₁ hg₁ (by omega) (not_mem_of_mem_succ_drop hc)
      exact ⟨g', hg', fun a b hab => hg₁ a b ((cuts_of_dropLoop fuel _ _ _ _ hg').sub a b hab)⟩
    obtain ⟨g', hg', -⟩ :=
      exists_foldlM _ hround _ fun a b hab => hK a b (sub_drop g v _ a b hab)
    exact ⟨g', hg'⟩

theorem dropLoop_mono {fuel : ℕ} : ∀ {path : List V} {v : V} {g g' : σ},
    dropLoop D fuel path v g = some g' → dropLoop D (fuel + 1) path v g = some g' := by
  induction fuel with
  | zero => rintro path v g g' ⟨⟩
  | succ fuel ih =>
    intro path v g g' h
    rw [dropLoop] at h ⊢
    exact foldlM_mono _ (fun g c g' hstep => ih hstep) _ g' h

theorem dropAllLoops_spec {g : σ} {vs : List V} {K : Finset V}
    (hvs : ∀ a b, Edge D.toCutting g a b → a ∈ vs) (hK : ∀ a b, Edge D.toCutting g a b → a ∈ K) :
    ∃ g', (∀ fuel, K.card < fuel → dropAllLoops D fuel vs g = some g') ∧ Sub D.toCutting g' g ∧
      (∀ v, ¬ TransGen (Edge D.toCutting g') v v) ∧
      ∀ a b, Edge D.toCutting g a b → ¬ Edge D.toCutting g' a b →
        ReflTransGen (Edge D.toCutting g) b a :=
  search_spec (fun fuel v g => dropLoop D fuel [] v g)
    (fun fuel v g g' h => cuts_of_dropLoop fuel [] v g g' h)
    (fun K v g hg => exists_dropLoop (K.card + 1) [] v g hg (by simp) (by simp))
    (fun _ _ _ _ h => dropLoop_mono h) hvs hK

theorem dropAllLoops_invariant {P : σ → Prop} (hdrop : ∀ g u p, P g → P (D.drop g u p))
    {fuel : ℕ} {vs : List V} {g g' : σ} (hg : P g) (h : dropAllLoops D fuel vs g = some g') :
    P g' := by
  have hloop : ∀ fuel path v g g', P g → dropLoop D fuel path v g = some g' → P g' := by
    intro fuel
    induction fuel with
    | zero => rintro path v g g' - ⟨⟩
    | succ fuel ih =>
      intro path v g g' hg h
      exact foldlM_invariant _ (fun g c g' hg hstep => ih _ c g g' hg hstep) _ g' (hdrop g v _ hg) h
  exact foldlM_invariant vs (fun g v g' hg hstep => hloop fuel [] v g g' hg hstep) g g' hg h

end Loops

end CppEtudes
