import CppEtudes.Calltree.Mind

/-!
# `format_tree` — the shape of the lines

Without pruning `format_tree` prints a tree node by node in preorder.
What stands before an entry tells the way down to the node: a group of
four columns for every node on it, by whether that is a last child. The
groups are put in front from the inside out, while the recursion returns.
-/

namespace CppEtudes

namespace Calltree

open Rose

section Shape

variable {ν ε σ : Type} (entry : ℕ → ν → ε) (blank : ε → Bool)

/-- The group of a node above. -/
def group (last : Bool) : String := if last then "    " else "│   "

/-- The group of the node itself. -/
def ownGroup (last : Bool) : String := if last then "└── " else "├── "

/-- **The line of a node**, by the way down to it. A childless node with a
blank entry that is not a last child is a bar. -/
def nodeLine (level : ℕ) (x : List Bool × Rose ν) : Line ε :=
  let above := x.1.dropLast.flatMap fun last => (group last).toList
  match x.1.getLast? with
  | none => ⟨[], some (entry level x.2.val)⟩
  | some last =>
    if !last && x.2.child.isEmpty && blank (entry (level + x.1.length) x.2.val) then
      ⟨above ++ "│".toList, none⟩
    else ⟨above ++ (ownGroup last).toList, some (entry (level + x.1.length) x.2.val)⟩

theorem nodeLine_root (level : ℕ) (t : Rose ν) :
    nodeLine entry blank level ([], t) = ⟨[], some (entry level t.val)⟩ := rfl

theorem nodeLine_concat (level : ℕ) (path : List Bool) (last : Bool) (t : Rose ν) :
    nodeLine entry blank level (path ++ [last], t) =
      if !last && t.child.isEmpty && blank (entry (level + (path.length + 1)) t.val) then
        ⟨path.flatMap (fun b => (group b).toList) ++ "│".toList, none⟩
      else ⟨path.flatMap (fun b => (group b).toList) ++ (ownGroup last).toList,
        some (entry (level + (path.length + 1)) t.val)⟩ := by
  simp only [nodeLine, List.dropLast_concat, List.getLast?_concat, List.length_append,
    List.length_singleton]

/-- Below another node a line gets its group in front. -/
theorem nodeLine_cons (level : ℕ) (b : Bool) {path : List Bool} (h : path ≠ []) (t : Rose ν) :
    nodeLine entry blank level (b :: path, t) =
      (nodeLine entry blank (level + 1) (path, t)).indent (group b) := by
  obtain ⟨path, last, rfl⟩ := (List.eq_nil_or_concat path).resolve_left h
  have hlevel : level + (path.length + 1 + 1) = level + 1 + (path.length + 1) := by omega
  rw [List.concat_eq_append, ← List.cons_append, nodeLine_concat, nodeLine_concat, List.length_cons,
    hlevel, List.flatMap_cons]
  split_ifs
  · simp only [Line.indent, List.append_assoc]
  · simp only [Line.indent, List.append_assoc]

/-- The lines below a child, from those below it on its own. -/
theorem map_nodeLine_walk (level : ℕ) (b : Bool) (v : ν) (cs : List (Rose ν)) :
    ((node v cs).walk [b]).map (nodeLine entry blank level) =
      nodeLine entry blank level ([b], node v cs) ::
        ((walkAll [] cs).map (nodeLine entry blank (level + 1))).map (Line.indent (group b)) := by
  have hwalk := walk_append [b] (node v cs) []
  rw [List.append_nil] at hwalk
  rw [hwalk, walk, List.map_cons, List.map_cons, List.append_nil, List.map_map, List.map_map]
  congr 1
  refine List.map_congr_left fun x hx => ?_
  exact nodeLine_cons entry blank level b (ne_nil_of_mem_walkAll hx) x.2

/-- **The lines of a last child.** -/
theorem elbow_walk (level : ℕ) (c : Rose ν) :
    Line.elbow ((c.walk []).map (nodeLine entry blank (level + 1))) =
      (c.walk [true]).map (nodeLine entry blank level) := by
  obtain ⟨v, cs⟩ := c
  rw [map_nodeLine_walk, walk, List.map_cons, nodeLine_root, Line.elbow]
  rfl

/-- **The lines of another child.** -/
theorem branch_walk (level : ℕ) (c : Rose ν) :
    Line.branch blank ((c.walk []).map (nodeLine entry blank (level + 1))) =
      (c.walk [false]).map (nodeLine entry blank level) := by
  obtain ⟨v, cs⟩ := c
  have hline := nodeLine_concat entry blank level [] false (node v cs)
  rw [List.nil_append, List.flatMap_nil, List.nil_append, List.nil_append, List.length_nil,
    Nat.zero_add, child, val, Bool.not_false, Bool.true_and] at hline
  rw [map_nodeLine_walk, walk, List.map_cons, nodeLine_root, Line.branch, hline]
  -- no lines below it: the node has no children
  have hrest : ((walkAll [] cs).map (nodeLine entry blank (level + 1))).isEmpty = cs.isEmpty := by
    rw [Bool.eq_iff_iff, List.isEmpty_iff, List.isEmpty_iff, List.map_eq_nil_iff, walkAll_eq_nil]
  rw [hrest]
  cases cs with
  | nil =>
    cases hblank : blank (entry (level + 1) v) <;> simp [val, hblank, Line.indent, ownGroup, walkAll]
  | cons c cs => simp [val, Line.indent, ownGroup, group]

end Shape

section Format

variable {ν ε σ : Type} {prune : ν → σ → Option ℕ × σ} {getEntry : σ → ℕ → ν → Option ℕ → ε}
  {getChild : σ → ℕ → ν → Option (List ν)} {blank : ε → Bool} {st : σ}

/-- The loop over the children, by what it does for each. -/
theorem formatChildren_eq {entry : ℕ → ν → ε} {step : ν → σ → Option (List (Line ε) × σ)}
    {level : ℕ} {cs : List (Rose ν)}
    (h : ∀ c ∈ cs, step c.val st = some ((c.walk []).map (nodeLine entry blank (level + 1)), st)) :
    formatChildren blank step (cs.map val) st =
      some ((walkAll [] cs).map (nodeLine entry blank level), st) := by
  induction cs with
  | nil => rfl
  | cons c cs ih =>
    have hc := h c List.mem_cons_self
    have hcs := ih fun x hx => h x (List.mem_cons_of_mem _ hx)
    cases cs with
    | nil =>
      have hlast : formatChildren blank step [c.val] st =
          (step c.val st).bind fun x => some (Line.elbow x.1, x.2) := rfl
      rw [List.map_singleton, hlast, hc, Option.bind_some, elbow_walk]
      rfl
    | cons c' cs =>
      have hnext : formatChildren blank step ((c :: c' :: cs).map val) st =
          (step c.val st).bind fun x =>
            (formatChildren blank step ((c' :: cs).map val) x.2).bind fun y =>
              some (Line.branch blank x.1 ++ y.1, y.2) := rfl
      rw [hnext, hc, Option.bind_some, hcs, Option.bind_some, branch_walk, walkAll, List.map_append]
      rfl

/-- Without pruning, the lines of the nodes in the order of the walk. -/
theorem formatTree_eq_walk (hprune : ∀ v, prune v st = (none, st)) (t : Rose ν)
    (hchild : ∀ p u, t.Reaches p u → ∀ level, getChild st level u.val = some (u.child.map val))
    {fuel : ℕ} (hfuel : t.vals.length ≤ fuel) (level : ℕ) :
    formatTree prune getEntry getChild blank fuel level t.val st =
      some ((t.walk []).map (nodeLine (fun l v => getEntry st l v none) blank level), st) := by
  induction t using induct generalizing fuel level with
  | h v cs ih =>
    rw [vals_node, List.length_cons] at hfuel
    obtain ⟨fuel, rfl⟩ : ∃ k, fuel = k + 1 := ⟨fuel - 1, by omega⟩
    have hcs : ∀ c ∈ cs, formatTree prune getEntry getChild blank fuel (level + 1) c.val st =
        some ((c.walk []).map (nodeLine (fun l v => getEntry st l v none) blank (level + 1)), st) := by
      intro c hc
      refine ih c hc (fun p u hu => hchild _ u (.down hc hu)) ?_ (level + 1)
      have hle := length_vals_le hc
      omega
    have hroot : getChild st level v = some (cs.map val) := hchild _ _ (.here _) level
    simp only [formatTree, val, hprune, hroot, Option.bind_eq_bind, Option.bind_some,
      formatChildren_eq hcs]
    rfl

/-- **`format_tree` prints a tree in preorder**: without pruning it returns
one line for every node, in preorder, each by the way down to the node. -/
theorem formatTree_lines (hprune : ∀ v, prune v st = (none, st)) (t : Rose ν)
    (hchild : ∀ p u, t.Reaches p u → ∀ level, getChild st level u.val = some (u.child.map val))
    {fuel : ℕ} (hfuel : t.vals.length ≤ fuel) :
    formatTree prune getEntry getChild blank fuel 0 t.val st =
        some ((t.walk []).map (nodeLine (fun l v => getEntry st l v none) blank 0), st) ∧
      (t.walk []).map (fun x => (x.1.length, x.2.val)) = t.preorder 0 :=
  ⟨formatTree_eq_walk hprune t hchild hfuel 0, map_walk t []⟩

end Format

/-- A node without children and entry, and another one below the root. -/
def blankFirst : Rose ℕ := .node 0 [.node 1 [], .node 2 []]

theorem formatTree_lines_blankFirst :
    formatTree (fun _ st => (none, st)) (fun _ _ i _ => ([['r'], [], ['x']] : List Text).getD i [])
        (fun _ _ i => some (([[1, 2]] : List (List ℕ)).getD i [])) (fun e => e.all isSpace)
        3 0 0 () =
      some ([⟨[], some ['r']⟩, ⟨"│".toList, none⟩, ⟨"└── ".toList, some ['x']⟩], ()) := by
  have hkids : blankFirst.Agrees fun i => ([[1, 2]] : List (List ℕ)).getD i [] := by
    refine agrees_node.2 ⟨rfl, fun c hc => ?_⟩
    rcases List.mem_cons.1 hc with rfl | hc
    · exact agrees_node.2 ⟨rfl, nofun⟩
    · rw [List.mem_singleton.1 hc]
      exact agrees_node.2 ⟨rfl, nofun⟩
  exact (formatTree_lines (fun _ => rfl) blankFirst (fun p u hu _ => congrArg some (hkids p u hu))
    (by decide)).1

/-! ## Outlines -/

/-- The nodes of an outline, printed. -/
theorem Mind.Describes.formatMind {m : Mind} {t : Rose ℕ} (h : m.Describes t) {fuel : ℕ}
    (hfuel : m.heap.length ≤ fuel) :
    Calltree.formatMind m.heap t.val fuel = some ((t.walk []).map (nodeLine
      (fun _ i => (m.heap[i]?.map MindNode.content).getD []) (fun e => e.all isSpace) 0)) := by
  have hchild : ∀ p u, t.Reaches p u → ∀ _ : ℕ,
      m.heap[u.val]?.map MindNode.children = some (u.child.map val) := by
    intro p u hu _
    have hlt := hu.val_mem_vals
    rw [h.vals, List.mem_range] at hlt
    have hkids := h.kids p u hu
    rw [Mind.kids, List.getElem?_eq_getElem hlt] at hkids
    rw [List.getElem?_eq_getElem hlt]
    exact congrArg some hkids
  have hlen : t.vals.length ≤ fuel := by rwa [h.vals, List.length_range]
  rw [Calltree.formatMind, formatTree_eq_walk (fun _ => rfl) t hchild hlen 0]
  rfl

/-- **An outline is printed line by line**: `format_mind` of `mind` prints
the title and the lines in their order, each with the groups of a node at
the depth of its dashes. -/
theorem formatMind_mind (title : Text) {lines : List Text} (h : ¬ Mind.IllFormed 0 lines) :
    ∃ heap root, mind title lines = some (heap, root) ∧ ∃ t : Rose ℕ,
      t.preorder 0 = (0 :: lines.map dashes).zipIdx ∧
      ∀ fuel, lines.length < fuel → formatMind heap root fuel = some ((t.walk []).map (nodeLine
        (fun _ i => (title :: lines.map mindContent)[i]?.getD []) (fun e => e.all isSpace) 0)) := by
  obtain ⟨m, t, hmind, hdesc, hlabels⟩ := mind_eq_some title h
  have hlevels : m.heap.map MindNode.level = 0 :: lines.map dashes := by
    have hfst := congrArg (List.map Prod.fst) hlabels
    simpa [Mind.labels, Function.comp_def] using hfst
  have hcontents : m.heap.map MindNode.content = title :: lines.map mindContent := by
    have hsnd := congrArg (List.map Prod.snd) hlabels
    simpa [Mind.labels, Function.comp_def] using hsnd
  refine ⟨m.heap, t.val, hmind, t, by rw [hdesc.order, hlevels], fun fuel hfuel => ?_⟩
  have hlen : m.heap.length ≤ fuel := by
    have hlength := congrArg List.length hlevels
    simp only [List.length_map, List.length_cons] at hlength
    omega
  rw [hdesc.formatMind hlen, ← hcontents]
  simp only [List.getElem?_map]

end Calltree

end CppEtudes
