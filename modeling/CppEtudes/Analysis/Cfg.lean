import CppEtudes.Analysis.Model.Cfg
import Mathlib.Data.List.Nodup
import Mathlib.Data.List.Perm.Basic
import Mathlib.Tactic.Common

/-!
# What a `Cfg` knows of its graph

`set_pred_ids` assigns the successors, so the predecessors of a block stay
empty: every block that is added becomes an end block, and `pred` finds
nothing (`endBlocks_ofBlocks`, `pred_block`). A graph of more than one block has
a block with successors, so only a graph of one block is kept as it was
set.
-/

namespace CppEtudes

namespace Analysis

/-! ## Blocks -/

theorem Node.id_block (a : Node) (s : Setup) : (a.block s).id = a.id := by
  unfold block
  split_ifs <;> rfl

/-- **No block has predecessors**: `_pred_ids` is never assigned. -/
theorem Node.predIds_block (a : Node) (s : Setup) : (a.block s).predIds = [] := by
  unfold block
  split_ifs <;> rfl

/-! ## Adding blocks -/

namespace Cfg

variable {c : Cfg}

theorem lookup_emplace_self {blocks : AList fun _ : ℕ => Option StmtBlock} {id : ℕ}
    (h : id ∉ blocks) (blk : Option StmtBlock) : (emplace blocks id blk).lookup id = some blk := by
  rw [emplace, if_neg h, AList.lookup_insert]

theorem lookup_emplace_of_ne (blocks : AList fun _ : ℕ => Option StmtBlock) {id i : ℕ}
    (h : i ≠ id) (blk : Option StmtBlock) : (emplace blocks id blk).lookup i = blocks.lookup i := by
  unfold emplace
  split_ifs
  · rfl
  · exact AList.lookup_insert_ne h

theorem mem_emplace (blocks : AList fun _ : ℕ => Option StmtBlock) {id i : ℕ}
    (blk : Option StmtBlock) : i ∈ emplace blocks id blk ↔ i = id ∨ i ∈ blocks := by
  unfold emplace
  split_ifs with h
  · exact (or_iff_right_of_imp fun heq => heq ▸ h).symm
  · exact AList.mem_insert ..

/-- Later blocks do not change the entries of other ids. -/
theorem lookup_foldl_add (blks : List StmtBlock) (i : ℕ) (h : i ∉ blks.map StmtBlock.id) :
    (blks.foldl add c).blocks.lookup i = c.blocks.lookup i := by
  induction blks generalizing c with
  | nil => rfl
  | cons blk blks ih =>
    rw [List.map_cons, List.mem_cons, not_or] at h
    rw [List.foldl_cons, ih h.2]
    exact lookup_emplace_of_ne _ h.1 _

/-- **Every block is found under its id.** -/
theorem lookup_foldl_add_of_mem {blks : List StmtBlock} (hnodup : (blks.map StmtBlock.id).Nodup)
    (hnew : ∀ blk ∈ blks, blk.id ∉ c.blocks) :
    ∀ blk ∈ blks, (blks.foldl add c).blocks.lookup blk.id = some (some blk) := by
  induction blks generalizing c with
  | nil => exact fun _ h => absurd h List.not_mem_nil
  | cons b blks ih =>
    rw [List.map_cons, List.nodup_cons] at hnodup
    intro blk hblk
    rw [List.foldl_cons]
    rcases List.mem_cons.1 hblk with rfl | hblk
    · rw [lookup_foldl_add blks _ hnodup.1]
      exact lookup_emplace_self (hnew _ List.mem_cons_self) _
    · refine ih hnodup.2 (fun b' hb' hmem => ?_) blk hblk
      rcases (mem_emplace ..).1 hmem with heq | hold
      · exact hnodup.1 (List.mem_map.2 ⟨b', hb', heq⟩)
      · exact hnew b' (List.mem_cons_of_mem _ hb') hold

theorem lookup_ofBlocks {blks : List StmtBlock} (hnodup : (blks.map StmtBlock.id).Nodup)
    (beginBlockId : ℕ) : ∀ blk ∈ blks,
      (ofBlocks beginBlockId blks).blocks.lookup blk.id = some (some blk) :=
  lookup_foldl_add_of_mem hnodup fun _ _ => AList.notMem_empty _

theorem endBlockIds_foldl_add {blks : List StmtBlock} (h : ∀ blk ∈ blks, blk.predIds = []) :
    (blks.foldl add c).endBlockIds = c.endBlockIds ++ blks.map StmtBlock.id := by
  induction blks generalizing c with
  | nil => rw [List.foldl_nil, List.map_nil, List.append_nil]
  | cons blk blks ih =>
    have hadd : (c.add blk).endBlockIds = c.endBlockIds ++ [blk.id] :=
      if_pos (by rw [h _ List.mem_cons_self]; rfl)
    rw [List.foldl_cons, ih fun b hb => h b (List.mem_cons_of_mem _ hb), hadd, List.map_cons,
      List.append_assoc, List.singleton_append]

theorem subscript_of_lookup {i : ℕ} {blk : Option StmtBlock} (h : c.blocks.lookup i = some blk) :
    c.subscript i = (blk, c) := by
  rw [subscript, h]

/-- Blocks that are there are found, and nothing is inserted. -/
theorem subscripts_map {α : Type} {l : List α} {f : α → ℕ} {g : α → StmtBlock}
    (h : ∀ a ∈ l, c.blocks.lookup (f a) = some (some (g a))) :
    c.subscripts (l.map f) = (l.map fun a => some (g a), c) := by
  induction l with
  | nil => rfl
  | cons a l ih =>
    rw [List.map_cons, subscripts, subscript_of_lookup (h a List.mem_cons_self)]
    dsimp only
    rw [ih fun b hb => h b (List.mem_cons_of_mem _ hb)]
    rfl

end Cfg

/-! ## The graph of a `Cfg` -/

variable (G : Graph) (setup : Node → Setup)

/-- **The graph is kept**: the four queries give the blocks that were set. -/
def Kept (c : Cfg) : Prop :=
  (∃ a ∈ G.nodes, a.preds = [] ∧ c.beginBlock.1 = some (a.block (setup a))) ∧
  (∀ b, b ∈ c.endBlocks.1 ↔ ∃ a ∈ G.nodes, a.succs = [] ∧ b = some (a.block (setup a))) ∧
  (∀ a ∈ G.nodes, (c.succ (a.block (setup a))).1 =
    a.succs.map fun i => (G.nodes.find? fun b => b.id = i).map fun b => b.block (setup b)) ∧
  ∀ a ∈ G.nodes, (c.pred (a.block (setup a))).1 =
    a.preds.map fun i => (G.nodes.find? fun b => b.id = i).map fun b => b.block (setup b)

/-- `pred` finds nothing. -/
theorem pred_block (c : Cfg) (a : Node) (s : Setup) : (c.pred (a.block s)).1 = [] := by
  rw [Cfg.pred, a.predIds_block s]
  rfl

variable {G setup}

theorem map_id_block (nodes : List Node) :
    (nodes.map fun a => a.block (setup a)).map StmtBlock.id = nodes.map Node.id := by
  rw [List.map_map]
  exact List.map_congr_left fun a _ => a.id_block _

/-- **Every block is an end block.** -/
theorem endBlocks_ofBlocks {order : List Node} (horder : order.Perm G.nodes) (beginBlockId : ℕ) :
    (Cfg.ofBlocks beginBlockId (order.map fun a => a.block (setup a))).endBlocks.1 =
      order.map fun a => some (a.block (setup a)) := by
  have hnodup : ((order.map fun a => a.block (setup a)).map StmtBlock.id).Nodup := by
    rw [map_id_block]
    exact (horder.map Node.id).nodup_iff.2 G.nodup
  have hlookup := Cfg.lookup_ofBlocks hnodup beginBlockId
  have hends : (Cfg.ofBlocks beginBlockId (order.map fun a => a.block (setup a))).endBlockIds =
      order.map Node.id := by
    rw [Cfg.ofBlocks, Cfg.endBlockIds_foldl_add, map_id_block]
    · rfl
    · intro blk hblk
      obtain ⟨a, -, rfl⟩ := List.mem_map.1 hblk
      exact a.predIds_block _
  rw [Cfg.endBlocks, hends, Cfg.subscripts_map (g := fun a => a.block (setup a))]
  intro a ha
  have hfound := hlookup _ (List.mem_map_of_mem (f := fun a => a.block (setup a)) ha)
  rwa [a.id_block] at hfound

namespace Graph

/-- A graph without successors has one block. -/
theorem length_eq_one (h : ∀ a ∈ G.nodes, a.succs = []) : G.nodes.length = 1 := by
  obtain ⟨a, ⟨ha, -⟩, hunique⟩ := G.entry
  have hall : ∀ b ∈ G.nodes, b = a := by
    intro b hb
    refine hunique b ⟨hb, List.eq_nil_iff_forall_not_mem.2 fun i hi => ?_⟩
    obtain ⟨p, hp, -, hsucc⟩ := G.pred_mem b hb i hi
    rw [h p hp] at hsucc
    exact List.not_mem_nil hsucc
  have hrep := List.eq_replicate_iff.2 ⟨rfl, hall⟩
  have hnodup := hrep ▸ List.Nodup.of_map _ G.nodup
  have := List.nodup_replicate.1 hnodup
  have := List.length_pos_of_mem ha
  omega

/-- The only block of a graph has no edges. -/
theorem eq_singleton (h : G.nodes.length = 1) : ∃ id, G.nodes = [⟨id, [], []⟩] := by
  obtain ⟨⟨id, succs, preds⟩, hnodes⟩ := List.length_eq_one_iff.1 h
  obtain ⟨a, ⟨ha, hpreds⟩, -⟩ := G.entry
  rw [hnodes, List.mem_singleton] at ha
  subst ha
  obtain rfl : preds = [] := hpreds
  obtain rfl : succs = [] := by
    refine List.eq_nil_iff_forall_not_mem.2 fun i hi => ?_
    obtain ⟨b, hb, -, hpred⟩ := G.succ_mem _ (hnodes ▸ List.mem_singleton_self _) i hi
    rw [hnodes, List.mem_singleton] at hb
    subst hb
    exact List.not_mem_nil hpred
  exact ⟨id, hnodes⟩

end Graph

/-- **A graph is kept if it has one block**, in whatever order the setters
are called and the blocks are added. -/
theorem kept_iff {order : List Node} (horder : order.Perm G.nodes) (beginBlockId : ℕ) :
    Kept G setup (Cfg.ofBlocks beginBlockId (order.map fun a => a.block (setup a))) ↔
      G.nodes.length = 1 := by
  constructor
  · rintro ⟨-, hends, -, -⟩
    refine Graph.length_eq_one fun a ha => ?_
    have hmem : some (a.block (setup a)) ∈
        order.map fun a => some (a.block (setup a)) :=
      List.mem_map_of_mem (f := fun a => some (a.block (setup a))) (horder.mem_iff.2 ha)
    rw [← endBlocks_ofBlocks horder beginBlockId] at hmem
    obtain ⟨b, hb, hsuccs, heq⟩ := (hends _).1 hmem
    -- two nodes with one block have one id
    have hid := congrArg StmtBlock.id (Option.some.inj heq)
    rw [a.id_block, b.id_block] at hid
    rwa [List.inj_on_of_nodup_map G.nodup ha hb hid]
  · intro hlength
    obtain ⟨id, hnodes⟩ := Graph.eq_singleton hlength
    have hone : order = [⟨id, [], []⟩] := List.perm_singleton.1 (hnodes ▸ horder)
    have hends := @endBlocks_ofBlocks G setup order horder beginBlockId
    rw [hone] at hends ⊢
    have hblock : (⟨id, [], []⟩ : Node).block (setup ⟨id, [], []⟩) = ⟨id, [], []⟩ := by
      unfold Node.block
      split_ifs <;> rfl
    refine ⟨⟨⟨id, [], []⟩, by rw [hnodes]; exact List.mem_singleton_self _, rfl, ?_⟩, fun b => ?_,
      fun a ha => ?_, fun a ha => ?_⟩
    · have hfound := @Cfg.lookup_ofBlocks [⟨id, [], []⟩] (List.nodup_singleton id) beginBlockId _
        List.mem_cons_self
      rw [List.map_singleton, hblock]
      exact congrArg Prod.fst (Cfg.subscript_of_lookup hfound)
    · rw [hends, hnodes]
      simp
    · rw [hnodes, List.mem_singleton] at ha
      subst ha
      rw [Cfg.succ, hblock]
      rfl
    · rw [hnodes, List.mem_singleton] at ha
      subst ha
      rw [pred_block]
      rfl

/-- One block without edges. -/
def lone : Graph where
  nodes := [⟨3, [], []⟩]
  nodup := by decide
  succ_mem := by decide
  pred_mem := by decide
  entry := ⟨⟨3, [], []⟩, by decide, fun _ h => List.mem_singleton.1 h.1⟩

/-- Two blocks, the first before the second. -/
def line : Graph where
  nodes := [⟨1, [2], []⟩, ⟨2, [], [1]⟩]
  nodup := by decide
  succ_mem := by decide
  pred_mem := by decide
  entry := by
    refine ⟨⟨1, [2], []⟩, by decide, fun a ⟨ha, hpreds⟩ => ?_⟩
    rcases List.mem_cons.1 ha with rfl | ha
    · rfl
    · rw [List.mem_singleton.1 ha] at hpreds
      exact absurd hpreds (by decide)

/-- The one block is kept, and the two are not. -/
theorem kept_lone :
    Kept lone (fun _ => ⟨0, true⟩) (Cfg.ofBlocks 8 [Node.block ⟨3, [], []⟩ ⟨0, true⟩]) ∧
      ¬ Kept line (fun _ => ⟨0, true⟩)
        (Cfg.ofBlocks 1 (line.nodes.map fun a => a.block ⟨0, true⟩)) :=
  ⟨(kept_iff (List.Perm.refl lone.nodes) 8).2 rfl,
    fun hkept => absurd ((kept_iff (List.Perm.refl line.nodes) 1).1 hkept) (by decide)⟩

/-- **The first of two blocks is an end block**, and loses its successor
where its predecessors are set last. -/
theorem not_kept_line :
    let c := Cfg.ofBlocks 0 (line.nodes.map fun a => a.block ⟨0, false⟩)
    c.endBlocks.1 = [some ⟨1, [], []⟩, some ⟨2, [1], []⟩] ∧
      (c.succ (Node.block ⟨1, [2], []⟩ ⟨0, false⟩)).1 = [] ∧
      (c.pred (Node.block ⟨2, [], [1]⟩ ⟨0, false⟩)).1 = [] ∧
      ¬ Kept line (fun _ => ⟨0, false⟩) c := by
  intro c
  have hends : c.endBlocks.1 = [some ⟨1, [], []⟩, some ⟨2, [1], []⟩] := by decide
  refine ⟨hends, by decide, by decide, fun hkept => ?_⟩
  obtain ⟨a, ha, hsuccs, heq⟩ := (hkept.2.1 (some ⟨1, [], []⟩)).1 (hends ▸ List.mem_cons_self)
  rcases List.mem_cons.1 ha with rfl | ha
  · exact absurd hsuccs (by decide)
  · rw [List.mem_singleton.1 ha] at heq
    exact absurd heq (by decide)

end Analysis

end CppEtudes
