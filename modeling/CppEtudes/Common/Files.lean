import Mathlib.Data.List.AList
import Mathlib.Tactic.Common

/-!
# Files and interrupted operations

A store of files by name, the operations on it, and a run that is cut off
after any number of them. A rename is atomic; a write that is cut off
leaves some part of its contents from the front.
-/

namespace CppEtudes

namespace Files

variable {N β : Type} [DecidableEq N]

/-- The regular files and their contents. -/
abbrev Store (N β : Type) := AList fun _ : N => List β

inductive Op (N β : Type)
  | rename (src dst : N)
  | write (name : N) (content : List β)
  | unlink (name : N)

/-- A rename of a file that is not there fails and changes nothing. -/
def Op.apply : Op N β → Store N β → Store N β
  | .rename src dst, s =>
    match s.lookup src with
    | some content => (s.erase src).insert dst content
    | none => s
  | .write name content, s => s.insert name content
  | .unlink name, s => s.erase name

def run (ops : List (Op N β)) (s : Store N β) : Store N β := ops.foldl (fun s op => op.apply s) s

/-- What may be left of an operation that is cut off: some of the contents
of a write. -/
def Op.torn (cut : Option ℕ) : Op N β → List (Op N β)
  | .write name content => cut.toList.map fun m => .write name (content.take m)
  | _ => []

/-- **The operations up to an interruption**: the first `n`, and what is
left of the next. -/
def interrupt : List (Op N β) → ℕ → Option ℕ → List (Op N β)
  | [], _, _ => []
  | op :: _, 0, cut => op.torn cut
  | op :: ops, n + 1, cut => op :: interrupt ops n cut

/-! ## Lookups -/

section Lookup

variable {s : Store N β} {a b x : N} {content : List β}

theorem lookup_rename (ha : s.lookup a = some content) (x : N) :
    ((Op.rename a b).apply s).lookup x =
      if x = b then some content else if x = a then none else s.lookup x := by
  simp only [Op.apply, ha]
  split_ifs with hb hxa
  · rw [hb, AList.lookup_insert]
  · rw [AList.lookup_insert_ne hb, hxa, AList.lookup_erase]
  · rw [AList.lookup_insert_ne hb, AList.lookup_erase_ne hxa]

theorem lookup_write (a : N) (content : List β) (x : N) :
    ((Op.write a content).apply s).lookup x = if x = a then some content else s.lookup x := by
  simp only [Op.apply]
  split_ifs with h
  · rw [h, AList.lookup_insert]
  · rw [AList.lookup_insert_ne h]

theorem lookup_unlink (a x : N) :
    ((Op.unlink a).apply s).lookup x = if x = a then none else s.lookup x := by
  simp only [Op.apply]
  split_ifs with h
  · rw [h, AList.lookup_erase]
  · rw [AList.lookup_erase_ne h]

end Lookup

/-! ## Runs -/

@[simp]
theorem run_nil (s : Store N β) : run [] s = s := rfl

@[simp]
theorem run_cons (op : Op N β) (ops : List (Op N β)) (s : Store N β) :
    run (op :: ops) s = run ops (op.apply s) := rfl

theorem run_append (ops ops' : List (Op N β)) (s : Store N β) :
    run (ops ++ ops') s = run ops' (run ops s) := List.foldl_append

omit [DecidableEq N] in
/-- An interruption falls into the first part, or the first part is done. -/
theorem interrupt_append (ops ops' : List (Op N β)) (n : ℕ) (cut : Option ℕ) :
    interrupt (ops ++ ops') n cut =
      if n < ops.length then interrupt ops n cut
      else ops ++ interrupt ops' (n - ops.length) cut := by
  induction ops generalizing n with
  | nil => simp
  | cons op ops ih =>
    cases n with
    | zero => simp [interrupt]
    | succ n =>
      simp only [List.cons_append, interrupt, ih, List.length_cons, Nat.add_lt_add_iff_right,
        Nat.add_sub_add_right]
      split_ifs <;> rfl

omit [DecidableEq N] in
theorem interrupt_of_length_le {ops : List (Op N β)} {n : ℕ} (h : ops.length ≤ n) (cut : Option ℕ) :
    interrupt ops n cut = ops := by
  induction ops generalizing n with
  | nil => rfl
  | cons op ops ih =>
    obtain ⟨n, rfl⟩ : ∃ m, n = m + 1 := ⟨n - 1, by simp at h; omega⟩
    rw [interrupt, ih (by simpa using h)]

/-- **Renames one after the other**, when no file is moved onto one that
is still to be moved. -/
theorem lookup_renameAll (g : N → N) (names : List N) : ∀ {s : Store N β}, names.Nodup →
    (∀ a ∈ names, a ∈ s) → (∀ a ∈ names, g a ∉ names) → (∀ a ∈ names, ∀ b ∈ names, g a = g b → a = b) →
    (∀ a ∈ names, (run (names.map fun a => .rename a (g a)) s).lookup (g a) = s.lookup a) ∧
      (∀ a ∈ names, (run (names.map fun a => .rename a (g a)) s).lookup a = none) ∧
      ∀ x, x ∉ names → (∀ a ∈ names, g a ≠ x) →
        (run (names.map fun a => .rename a (g a)) s).lookup x = s.lookup x := by
  induction names with
  | nil => intro s _ _ _ _; simp
  | cons a names ih =>
    intro s hnodup hmem hout hinj
    obtain ⟨ha, hnodup⟩ := List.nodup_cons.1 hnodup
    obtain ⟨content, hc⟩ := Option.isSome_iff_exists.1 (AList.lookup_isSome.2 (hmem a (by simp)))
    have hab : a ≠ g a := fun h => hout a (by simp) (by rw [← h]; simp)
    have hlook := lookup_rename (b := g a) hc
    -- the others are where they were
    have hsame : ∀ b ∈ names, ((Op.rename a (g a)).apply s).lookup b = s.lookup b := by
      intro b hb
      rw [hlook, if_neg, if_neg]
      · rintro rfl
        exact ha hb
      · rintro rfl
        exact hout a (by simp) (by simp [hb])
    obtain ⟨hmoved, hgone, hrest⟩ := ih (s := (Op.rename a (g a)).apply s) hnodup
      (fun b hb => AList.lookup_isSome.1 (by
        rw [hsame b hb]; exact AList.lookup_isSome.2 (hmem b (by simp [hb]))))
      (fun b hb h => hout b (by simp [hb]) (by simp [h]))
      (fun b hb c hc h => hinj b (by simp [hb]) c (by simp [hc]) h)
    have hout' : ∀ b ∈ names, g b ≠ g a := by
      intro b hb h
      exact ha (hinj b (by simp [hb]) a (by simp) h ▸ hb)
    simp only [List.map_cons, run_cons]
    refine ⟨fun b hb => ?_, fun b hb => ?_, fun x hx hne => ?_⟩
    · rcases List.mem_cons.1 hb with rfl | hb
      · rw [hrest (g b) (fun h => hout b (by simp) (by simp [h])) hout', hlook, if_pos rfl, hc]
      · rw [hmoved b hb, hsame b hb]
    · rcases List.mem_cons.1 hb with rfl | hb
      · rw [hrest b ha fun c hc h => hout c (by simp [hc]) (by simp [h]), hlook, if_neg hab,
          if_pos rfl]
      · exact hgone b hb
    · rw [hrest x (fun h => hx (by simp [h])) fun b hb => hne b (by simp [hb]), hlook,
        if_neg fun h => hne a (by simp) h.symm, if_neg fun h => hx (by simp [h])]

theorem lookup_unlinkAll (names : List N) : ∀ (s : Store N β) (x : N),
    (run (names.map Op.unlink) s).lookup x = if x ∈ names then none else s.lookup x := by
  induction names with
  | nil => intro s x; simp
  | cons a names ih =>
    intro s x
    rw [List.map_cons, run_cons, ih, lookup_unlink]
    by_cases hx : x = a <;> by_cases hn : x ∈ names <;> simp [hx, hn]

end Files

end CppEtudes
