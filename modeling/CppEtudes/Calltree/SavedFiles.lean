import CppEtudes.Calltree.Model.SavedFiles
import Mathlib.Logic.Function.Iterate

/-!
# Interrupted preprocessing

`preprocess_cpp_files` may be interrupted anywhere; the next run restores
the saved files first. At any point the saved file of a source file holds
what the source file held when it was last taken up, so that restoring
gives the tree back, but for two things: the file a rewritten text is
written to has a name that the restoring does not look for, and a file
that is taken up again has been rewritten before.
-/

namespace CppEtudes

namespace Calltree

open Files

/-! ## The names -/

/-- A name of a file that `calltree.pl` makes or removes. -/
def Leftover (x : Text) : Prop := savedSuffix <:+ x ∨ createdSuffix <:+ x ∨ tmpSuffix <:+ x

instance (x : Text) : Decidable (Leftover x) := inferInstanceAs (Decidable (_ ∨ _ ∨ _))

theorem suffix_savedName (f : Text) : savedSuffix <:+ savedName f := List.suffix_append _ _

theorem suffix_createdName (f : Text) : createdSuffix <:+ createdName f := List.suffix_append _ _

theorem leftover_savedName (f : Text) : Leftover (savedName f) := .inl (suffix_savedName f)

theorem leftover_createdName (f : Text) : Leftover (createdName f) :=
  .inr (.inl (suffix_createdName f))

variable {f g x content : Text}

/-- A name has one of the suffixes only. -/
theorem not_suffix_of_suffix {a b x : Text} (ha : a <:+ x)
    (hab : ¬ (a <:+ b ∨ b <:+ a)) : ¬ b <:+ x :=
  fun hb => hab (List.suffix_or_suffix_of_suffix ha hb)

theorem ne_savedName_of_suffix (hx : tmpSuffix <:+ x) (f : Text) : x ≠ savedName f := by
  rintro rfl
  exact not_suffix_of_suffix hx (by decide) (suffix_savedName f)

theorem ne_createdName_of_suffix (hx : tmpSuffix <:+ x) (f : Text) : x ≠ createdName f := by
  rintro rfl
  exact not_suffix_of_suffix hx (by decide) (suffix_createdName f)

theorem savedName_ne_createdName (f g : Text) : savedName f ≠ createdName g := by
  intro h
  have hs : savedSuffix <:+ createdName g := h ▸ suffix_savedName f
  exact not_suffix_of_suffix hs (by decide) (suffix_createdName g)

theorem savedName_inj : savedName f = savedName g ↔ f = g := List.append_left_inj _

theorem createdName_inj : createdName f = createdName g ↔ f = g :=
  List.append_left_inj _

theorem ne_of_not_leftover (hf : ¬ Leftover f) (hx : Leftover x) : x ≠ f := by
  rintro rfl
  exact hf hx

theorem originalName_savedName (f : Text) : originalName (savedName f) = f := by
  simp [originalName, savedName]

theorem isSavedName_iff : isSavedName x = true ↔ ∃ f, f ≠ [] ∧ x = savedName f := by
  unfold isSavedName
  rw [Bool.and_eq_true, decide_eq_true_eq, List.isSuffixOf_iff_suffix]
  constructor
  · rintro ⟨hlen, f, rfl⟩
    refine ⟨f, ?_, rfl⟩
    rintro rfl
    simp at hlen
  · rintro ⟨f, hf, rfl⟩
    refine ⟨?_, suffix_savedName f⟩
    have := List.length_pos_iff.2 hf
    simp [savedName]
    omega

/-! ## What is left at an interruption -/

/-- A file after one round. -/
def rewritten (rewrite : Text → Text) (content : Text) : Text :=
  if content.isEmpty then content else rewrite content

/-- The file is moved aside by the operation. -/
def takenUpBy : Op Text Char → Option Text
  | .rename a b => if b = savedName a then some a else none
  | _ => none

/-- The source files that were taken up, in the order they were. -/
def takenUp (ops : List (Op Text Char)) : List Text := ops.filterMap takenUpBy

/-- The source file whose rewritten text was written last, and not yet
moved to its place. -/
def createdBy (ops : List (Op Text Char)) : Option Text :=
  match ops.getLast? with
  | some (.write x _) =>
    if createdSuffix <:+ x then some (x.take (x.length - createdSuffix.length)) else none
  | _ => none

theorem takenUp_append (ops ops' : List (Op Text Char)) :
    takenUp (ops ++ ops') = takenUp ops ++ takenUp ops' := List.filterMap_append

theorem createdBy_append {ops ops' : List (Op Text Char)} (h : createdBy ops = none) :
    createdBy (ops ++ ops') = createdBy ops' := by
  rcases List.eq_nil_or_concat ops' with rfl | ⟨init, op, rfl⟩
  · rw [List.append_nil, h]
    rfl
  · simp [createdBy, ← List.append_assoc]

variable {rewrite : Text → Text} {tree₀ tree : SourceTree} {taken : List Text} {created : Option Text}

variable (rewrite tree₀) in
/-- **The tree at an interruption**, `tree₀` being the one it started
from. -/
structure Interrupted (taken : List Text) (created : Option Text) (tree : SourceTree) : Prop where
  files : ∀ f ∈ taken, f ∈ tree₀ ∧ f ≠ []
  untouched : ∀ x, ¬ Leftover x → x ∉ taken → tree.lookup x = tree₀.lookup x
  saved : ∀ f, tree.lookup (savedName f) =
    if f ∈ taken then (tree₀.lookup f).map (rewritten rewrite)^[taken.count f - 1] else none
  created : ∀ f, (tree.lookup (createdName f)).isSome = true ↔ created = some f
  tmp : ∀ x, tmpSuffix <:+ x → tree.lookup x = none

variable (rewrite tree₀) in
/-- The tree between two rounds. -/
structure Between (taken : List Text) (tree : SourceTree) : Prop
    extends Interrupted rewrite tree₀ taken none tree where
  current : ∀ x, ¬ Leftover x →
    tree.lookup x = (tree₀.lookup x).map (rewritten rewrite)^[taken.count x]

/-- A tree without the files of an earlier run. -/
def NoLeftovers (tree : SourceTree) : Prop := ∀ x ∈ tree, ¬ Leftover x

theorem NoLeftovers.lookup_eq_none (h : NoLeftovers tree) (hx : Leftover x) :
    tree.lookup x = none := by
  rw [AList.lookup_eq_none]
  exact fun hmem => h x hmem hx

theorem between_start (h : NoLeftovers tree₀) : Between rewrite tree₀ [] tree₀ where
  files := by simp
  untouched _ _ _ := rfl
  saved f := by simpa using h.lookup_eq_none (leftover_savedName f)
  created f := by simp [h.lookup_eq_none (leftover_createdName f)]
  tmp x hx := h.lookup_eq_none (.inr (.inr hx))
  current x _ := by simp

/-! ## One operation -/

/-- **Moving a source file aside.** -/
theorem Interrupted.save (h : Interrupted rewrite tree₀ taken none tree) (hf : ¬ Leftover f)
    (hmem : f ∈ tree₀) (hne : f ≠ []) (hc : tree.lookup f = some content)
    (hcur : tree.lookup f = (tree₀.lookup f).map (rewritten rewrite)^[taken.count f]) :
    Interrupted rewrite tree₀ (taken ++ [f]) none ((Op.rename f (savedName f)).apply tree) where
  files := by
    intro g hg
    rcases List.mem_append.1 hg with hg | hg
    · exact h.files g hg
    · rw [List.mem_singleton.1 hg]
      exact ⟨hmem, hne⟩
  untouched := by
    intro x hx hnot
    rw [List.mem_append, List.mem_singleton, not_or] at hnot
    rw [lookup_rename hc, if_neg (ne_of_not_leftover hx (leftover_savedName f)).symm, if_neg hnot.2]
    exact h.untouched x hx hnot.1
  saved := by
    intro x
    rw [lookup_rename hc]
    simp only [savedName_inj, List.mem_append, List.mem_singleton, List.count_append]
    by_cases hx : x = f
    · subst hx
      rw [if_pos rfl, if_pos (.inr rfl), List.count_singleton_self, Nat.add_sub_cancel, ← hcur, hc]
    · rw [if_neg hx, if_neg (ne_of_not_leftover hf (leftover_savedName x)), h.saved x]
      simp [hx, Ne.symm hx]
  created := by
    intro x
    rw [lookup_rename hc, if_neg (savedName_ne_createdName f x).symm,
      if_neg (ne_of_not_leftover hf (leftover_createdName x))]
    exact h.created x
  tmp := by
    intro x hx
    rw [lookup_rename hc, if_neg (ne_savedName_of_suffix hx f),
      if_neg (ne_of_not_leftover hf (.inr (.inr hx)))]
    exact h.tmp x hx

/-- **Writing a source file that was taken up.** -/
theorem Interrupted.write (h : Interrupted rewrite tree₀ taken created tree) (hf : ¬ Leftover f)
    (hmem : f ∈ taken) (content : Text) :
    Interrupted rewrite tree₀ taken created ((Op.write f content).apply tree) where
  files := h.files
  untouched := by
    intro x hx hnot
    have hne : x ≠ f := fun hxf => hnot (hxf ▸ hmem)
    rw [lookup_write, if_neg hne]
    exact h.untouched x hx hnot
  saved := by
    intro x
    rw [lookup_write, if_neg (ne_of_not_leftover hf (leftover_savedName x))]
    exact h.saved x
  created := by
    intro x
    rw [lookup_write, if_neg (ne_of_not_leftover hf (leftover_createdName x))]
    exact h.created x
  tmp := by
    intro x hx
    rw [lookup_write, if_neg (ne_of_not_leftover hf (.inr (.inr hx)))]
    exact h.tmp x hx

/-- **Writing the rewritten text to its own file.** -/
theorem Interrupted.create (h : Interrupted rewrite tree₀ taken none tree) (f content : Text) :
    Interrupted rewrite tree₀ taken (some f) ((Op.write (createdName f) content).apply tree) where
  files := h.files
  untouched := by
    intro x hx hnot
    rw [lookup_write, if_neg (ne_of_not_leftover hx (leftover_createdName f)).symm]
    exact h.untouched x hx hnot
  saved := by
    intro x
    rw [lookup_write, if_neg (savedName_ne_createdName x f)]
    exact h.saved x
  created := by
    intro x
    rw [lookup_write]
    by_cases hx : x = f
    · simp [hx]
    · rw [if_neg fun heq => hx (createdName_inj.1 heq), h.created x]
      simp [Ne.symm hx]
  tmp := by
    intro x hx
    rw [lookup_write, if_neg (ne_createdName_of_suffix hx f)]
    exact h.tmp x hx

/-- **Moving it to its place.** -/
theorem Interrupted.replace (h : Interrupted rewrite tree₀ taken (some f) tree) (hf : ¬ Leftover f)
    (hmem : f ∈ taken) (hc : tree.lookup (createdName f) = some content) :
    Interrupted rewrite tree₀ taken none ((Op.rename (createdName f) f).apply tree) where
  files := h.files
  untouched := by
    intro x hx hnot
    have hne : x ≠ f := fun hxf => hnot (hxf ▸ hmem)
    rw [lookup_rename hc, if_neg hne, if_neg (ne_of_not_leftover hx (leftover_createdName f)).symm]
    exact h.untouched x hx hnot
  saved := by
    intro x
    rw [lookup_rename hc, if_neg (ne_of_not_leftover hf (leftover_savedName x)),
      if_neg (savedName_ne_createdName x f)]
    exact h.saved x
  created := by
    intro x
    rw [lookup_rename hc, if_neg (ne_of_not_leftover hf (leftover_createdName x))]
    by_cases hx : x = f
    · simp [hx]
    · rw [if_neg fun heq => hx (createdName_inj.1 heq), h.created x]
      simp [Ne.symm hx]
  tmp := by
    intro x hx
    rw [lookup_rename hc, if_neg (ne_of_not_leftover hf (.inr (.inr hx))),
      if_neg (ne_createdName_of_suffix hx f)]
    exact h.tmp x hx

/-! ## One round -/

@[simp]
theorem takenUpBy_write (f content : Text) : takenUpBy (.write f content) = none := rfl

@[simp]
theorem takenUpBy_save (f : Text) : takenUpBy (.rename f (savedName f)) = some f := by
  simp [takenUpBy]

@[simp]
theorem takenUpBy_replace (f : Text) : takenUpBy (.rename (createdName f) f) = none := by
  have hne : f ≠ savedName (createdName f) := by
    intro h
    have := congrArg List.length h
    simp only [savedName, createdName, List.length_append] at this
    have hpos : 0 < savedSuffix.length := by decide
    omega
  simp [takenUpBy, hne]

section Last

variable {ops : List (Op Text Char)}

theorem createdBy_write (hf : ¬ Leftover f) (h : ops.getLast? = some (.write f content)) :
    createdBy ops = none := by
  simp only [createdBy, h]
  exact if_neg fun hsuffix => hf (.inr (.inl hsuffix))

theorem createdBy_create (h : ops.getLast? = some (.write (createdName f) content)) :
    createdBy ops = some f := by
  simp only [createdBy, h]
  rw [if_pos (suffix_createdName f)]
  simp [createdName]

theorem createdBy_rename {a b : Text} (h : ops.getLast? = some (.rename a b)) :
    createdBy ops = none := by
  simp only [createdBy, h]

end Last

theorem saveAndPreprocess_eq (hc : tree.lookup f = some content) :
    saveAndPreprocess rewrite f tree = [.rename f (savedName f), .write f content] ++
      if content.isEmpty then []
      else [.write (createdName f) (rewrite content), .rename (createdName f) f] := by
  have hsaved : ((Op.rename f (savedName f)).apply tree).lookup (savedName f) = some content := by
    rw [lookup_rename hc, if_pos rfl]
  simp only [saveAndPreprocess, preprocessOneCppFile, hsaved, Option.getD_some, lookup_write,
    if_true, List.cons_append, List.nil_append]

theorem takenUp_save_cons (f : Text) {ops : List (Op Text Char)}
    (h : ∀ op ∈ ops, takenUpBy op = none) : takenUp (.rename f (savedName f) :: ops) = [f] := by
  rw [takenUp, List.filterMap_cons, takenUpBy_save, List.filterMap_eq_nil_iff.2 h]

/-- **A round that is interrupted**: after each of its operations. -/
theorem Between.interrupt (h : Between rewrite tree₀ taken tree) (hf : ¬ Leftover f)
    (hmem : f ∈ tree₀) (hne : f ≠ []) (n : ℕ) (cut : Option ℕ) {ops : List (Op Text Char)}
    (hops : Files.interrupt (saveAndPreprocess rewrite f tree) n cut = ops) :
    Interrupted rewrite tree₀ (taken ++ takenUp ops) (createdBy ops) (run ops tree) := by
  obtain ⟨content₀, hc₀⟩ := Option.isSome_iff_exists.1 (AList.lookup_isSome.2 hmem)
  have hcur := h.current f hf
  obtain ⟨content, hc⟩ : ∃ content, tree.lookup f = some content := ⟨_, by rw [hcur, hc₀]; rfl⟩
  have hsave := h.save hf hmem hne hc hcur
  have hin : f ∈ taken ++ [f] := by simp
  have hcopy := hsave.write hf hin
  -- what is executed beyond the save takes nothing up
  have htaken : ∀ {rest : List (Op Text Char)}, (∀ op ∈ rest, takenUpBy op = none) →
      taken ++ takenUp (.rename f (savedName f) :: rest) = taken ++ [f] := by
    intro rest hrest
    rw [takenUp_save_cons f hrest]
  rw [saveAndPreprocess_eq hc] at hops
  rcases n with _ | _ | n
  · -- nothing was done
    obtain rfl : [] = ops := hops
    simpa [takenUp, createdBy] using h.toInterrupted
  · rcases cut with _ | m
    · obtain rfl : [.rename f (savedName f)] = ops := hops
      rw [htaken (by simp)]
      exact hsave
    · obtain rfl : [.rename f (savedName f), .write f (content.take m)] = ops := hops
      rw [htaken (by simp), createdBy_write hf rfl]
      exact hcopy _
  · cases hempty : content.isEmpty with
    | true =>
      obtain rfl : [.rename f (savedName f), .write f content] = ops := by
        simpa [hempty, Files.interrupt] using hops
      rw [htaken (by simp), createdBy_write hf rfl]
      exact hcopy _
    | false =>
      simp only [hempty, Bool.false_eq_true, if_false, List.cons_append, List.nil_append,
        Files.interrupt] at hops
      have hcreate := (hcopy content).create f
      rcases n with _ | _ | n
      · rcases cut with _ | m
        · obtain rfl : [.rename f (savedName f), .write f content] = ops := hops
          rw [htaken (by simp), createdBy_write hf rfl]
          exact hcopy _
        · obtain rfl : [.rename f (savedName f), .write f content,
            .write (createdName f) ((rewrite content).take m)] = ops := hops
          rw [htaken (by simp), createdBy_create rfl]
          exact hcreate _
      · obtain rfl : [.rename f (savedName f), .write f content,
          .write (createdName f) (rewrite content)] = ops := hops
        rw [htaken (by simp), createdBy_create rfl]
        exact hcreate _
      · obtain rfl : [.rename f (savedName f), .write f content,
          .write (createdName f) (rewrite content), .rename (createdName f) f] = ops := by
          cases n <;> exact hops
        rw [htaken (by simp), createdBy_rename rfl]
        exact (hcreate _).replace hf hin (by rw [lookup_write, if_pos rfl])

/-- **A round that comes to its end.** -/
theorem Between.round (h : Between rewrite tree₀ taken tree) (hf : ¬ Leftover f) (hmem : f ∈ tree₀)
    (hne : f ≠ []) : takenUp (saveAndPreprocess rewrite f tree) = [f] ∧
      createdBy (saveAndPreprocess rewrite f tree) = none ∧
      Between rewrite tree₀ (taken ++ [f]) (run (saveAndPreprocess rewrite f tree) tree) := by
  have hinterrupt := h.interrupt hf hmem hne _ none (Files.interrupt_of_length_le le_rfl none)
  obtain ⟨content₀, hc₀⟩ := Option.isSome_iff_exists.1 (AList.lookup_isSome.2 hmem)
  have hcur := h.current f hf
  obtain ⟨content, hc⟩ : ∃ content, tree.lookup f = some content := ⟨_, by rw [hcur, hc₀]; rfl⟩
  -- what the round leaves of the source files
  have hround : takenUp (saveAndPreprocess rewrite f tree) = [f] ∧
      createdBy (saveAndPreprocess rewrite f tree) = none ∧
      ∀ x, ¬ Leftover x → (run (saveAndPreprocess rewrite f tree) tree).lookup x =
        if x = f then some (rewritten rewrite content) else tree.lookup x := by
    rw [saveAndPreprocess_eq hc, rewritten]
    have hsaved : ∀ x, ¬ Leftover x → x ≠ savedName f := fun x hx =>
      (ne_of_not_leftover hx (leftover_savedName f)).symm
    have hcreated : ∀ x, ¬ Leftover x → x ≠ createdName f := fun x hx =>
      (ne_of_not_leftover hx (leftover_createdName f)).symm
    cases content.isEmpty with
    | true =>
      refine ⟨takenUp_save_cons f (by simp), createdBy_write hf rfl, fun x hx => ?_⟩
      simp only [if_true, List.append_nil, run_cons, run_nil, lookup_write, lookup_rename hc,
        if_neg (hsaved x hx)]
      split_ifs <;> rfl
    | false =>
      refine ⟨takenUp_save_cons f (by simp), createdBy_rename rfl,
        fun x hx => ?_⟩
      have hwritten : ((Op.write (createdName f) (rewrite content)).apply ((Op.write f content).apply
          ((Op.rename f (savedName f)).apply tree))).lookup (createdName f) =
          some (rewrite content) := by
        rw [lookup_write, if_pos rfl]
      simp only [Bool.false_eq_true, if_false, List.cons_append, List.nil_append, run_cons, run_nil]
      rw [lookup_rename hwritten]
      simp only [lookup_write, lookup_rename hc, if_neg (hsaved x hx), if_neg (hcreated x hx)]
      split_ifs <;> rfl
  obtain ⟨htaken, hcreated, hlook⟩ := hround
  rw [htaken, hcreated] at hinterrupt
  refine ⟨htaken, hcreated, hinterrupt, fun x hx => ?_⟩
  rw [hlook x hx]
  by_cases hxf : x = f
  · subst hxf
    rw [if_pos rfl, List.count_append, List.count_singleton_self, hc₀, Option.map_some,
      Function.iterate_succ_apply']
    rw [hc, hc₀, Option.map_some, Option.some.injEq] at hcur
    rw [hcur]
  · rw [if_neg hxf, h.current x hx]
    simp [Ne.symm hxf]

/-- **All rounds, interrupted anywhere.** -/
theorem Between.interrupt_preprocessEach (hclean : NoLeftovers tree₀) (files : List Text) :
    ∀ {taken : List Text} {tree : SourceTree}, Between rewrite tree₀ taken tree →
    (∀ f ∈ files, f ∈ tree₀ ∧ f ≠ []) → ∀ (n : ℕ) (cut : Option ℕ) {ops : List (Op Text Char)},
    Files.interrupt (preprocessEach rewrite files tree) n cut = ops →
    Interrupted rewrite tree₀ (taken ++ takenUp ops) (createdBy ops) (run ops tree) := by
  induction files with
  | nil =>
    rintro taken tree h - n cut ops rfl
    simpa [preprocessEach, Files.interrupt, takenUp, createdBy] using h.toInterrupted
  | cons f files ih =>
    intro taken tree h hmem n cut ops hops
    obtain ⟨hin, hne⟩ := hmem f (by simp)
    have hf : ¬ Leftover f := hclean f hin
    rw [preprocessEach, interrupt_append] at hops
    split_ifs at hops
    · exact h.interrupt hf hin hne n cut hops
    · -- the round of `f` is done, and the rest goes on from there
      obtain ⟨htaken, hcreated, hnext⟩ := h.round hf hin hne
      subst hops
      rw [takenUp_append, htaken, createdBy_append hcreated, run_append, ← List.append_assoc]
      exact ih hnext (fun g hg => hmem g (by simp [hg])) _ _ rfl

theorem interrupted_preprocessCppFiles (hclean : NoLeftovers tree₀) (isText : Text → Bool)
    (files : List Text) (n : ℕ) (cut : Option ℕ) {ops : List (Op Text Char)}
    (hops : Files.interrupt (preprocessCppFiles rewrite isText files tree₀) n cut = ops) :
    Interrupted rewrite tree₀ (takenUp ops) (createdBy ops) (run ops tree₀) := by
  refine (between_start hclean).interrupt_preprocessEach hclean _ (fun f hf => ?_) n cut hops
  obtain ⟨-, hlook⟩ := List.mem_filter.1 hf
  simp only [Bool.and_eq_true, Bool.not_eq_true', List.isEmpty_eq_false_iff] at hlook
  exact ⟨AList.lookup_isSome.1 (Option.isSome_of_any hlook.2), hlook.1⟩

/-! ## `restore_saved_files` -/

theorem Interrupted.mem_savedFiles (h : Interrupted rewrite tree₀ taken created tree) {x : Text} :
    x ∈ tree.keys.filter isSavedName ↔ ∃ f ∈ taken, x = savedName f := by
  rw [List.mem_filter, ← AList.mem_keys, ← AList.lookup_isSome, isSavedName_iff]
  constructor
  · rintro ⟨hsome, f, -, rfl⟩
    rw [h.saved f] at hsome
    split_ifs at hsome with hf
    · exact ⟨f, hf, rfl⟩
    · cases hsome
  · rintro ⟨f, hf, rfl⟩
    obtain ⟨hin, hne⟩ := h.files f hf
    refine ⟨?_, f, hne, rfl⟩
    rw [h.saved f, if_pos hf, Option.isSome_map]
    exact AList.lookup_isSome.2 hin

/-- **The saved files are moved back.** -/
theorem Interrupted.lookup_moveBack (h : Interrupted rewrite tree₀ taken created tree)
    (hclean : NoLeftovers tree₀) {tree' : SourceTree} (htree' : tree' =
      run ((tree.keys.filter isSavedName).map fun f => .rename f (originalName f)) tree) :
    (∀ f ∈ taken, tree'.lookup f =
        (tree₀.lookup f).map (rewritten rewrite)^[taken.count f - 1]) ∧
      (∀ f ∈ taken, tree'.lookup (savedName f) = none) ∧
      ∀ y, y ∉ taken → (∀ f ∈ taken, y ≠ savedName f) → tree'.lookup y = tree.lookup y := by
  obtain ⟨hmoved, hgone, hrest⟩ := lookup_renameAll originalName (tree.keys.filter isSavedName)
    (s := tree) (tree.nodupKeys.filter _) (fun a ha => (List.mem_filter.1 ha).1)
    (fun a ha hb => by
      obtain ⟨f, hf, rfl⟩ := h.mem_savedFiles.1 ha
      obtain ⟨g, -, hg⟩ := h.mem_savedFiles.1 hb
      rw [originalName_savedName] at hg
      exact hclean f (h.files f hf).1 (hg ▸ leftover_savedName g))
    (fun a ha b hb hab => by
      obtain ⟨f, -, rfl⟩ := h.mem_savedFiles.1 ha
      obtain ⟨g, -, rfl⟩ := h.mem_savedFiles.1 hb
      rw [originalName_savedName, originalName_savedName] at hab
      rw [hab])
  rw [← htree'] at hmoved hgone hrest
  refine ⟨fun f hf => ?_, fun f hf => hgone _ (h.mem_savedFiles.2 ⟨f, hf, rfl⟩), fun y hy hsaved => ?_⟩
  · have hback := hmoved (savedName f) (h.mem_savedFiles.2 ⟨f, hf, rfl⟩)
    rwa [originalName_savedName, h.saved f, if_pos hf] at hback
  · refine hrest y (fun hmem => ?_) fun a ha hay => ?_
    · obtain ⟨f, hf, rfl⟩ := h.mem_savedFiles.1 hmem
      exact hsaved f hf rfl
    · obtain ⟨f, hf, rfl⟩ := h.mem_savedFiles.1 ha
      rw [originalName_savedName] at hay
      exact hy (hay ▸ hf)

/-- **What is restored**: the saved files, over all else but the files
that the restoring takes for its own; those of the preprocessing are not
among them. -/
theorem Interrupted.lookup_restoreSavedFiles (h : Interrupted rewrite tree₀ taken created tree)
    (hclean : NoLeftovers tree₀) (x : Text) : (restoreSavedFiles tree).lookup x =
      if createdSuffix <:+ x then tree.lookup x
      else (tree₀.lookup x).map (rewritten rewrite)^[taken.count x - 1] := by
  obtain ⟨hback, hgone, hother⟩ := h.lookup_moveBack hclean rfl
  have hnotTaken : ∀ {y}, Leftover y → y ∉ taken := fun hy hmem => hclean _ (h.files _ hmem).1 hy
  unfold restoreSavedFiles
  rw [lookup_unlinkAll, if_neg]
  · split_ifs with hcreated
    · refine hother x (hnotTaken (.inr (.inl hcreated))) fun f _ => ?_
      rintro rfl
      exact not_suffix_of_suffix hcreated (by decide) (suffix_savedName f)
    · by_cases hx : x ∈ taken
      · exact hback x hx
      rw [List.count_eq_zero_of_not_mem hx]
      by_cases hsaved : savedSuffix <:+ x
      · obtain ⟨f, hfx⟩ := hsaved
        obtain rfl : x = savedName f := hfx.symm
        rw [hclean.lookup_eq_none (leftover_savedName f)]
        by_cases hf : f ∈ taken
        · exact hgone f hf
        · rw [hother _ hx fun g hg heq => hf (savedName_inj.1 heq ▸ hg)]
          exact (h.saved f).trans (if_neg hf)
      · rw [hother x hx fun f _ heq => hsaved (heq ▸ suffix_savedName f)]
        by_cases htmp : tmpSuffix <:+ x
        · rw [h.tmp x htmp, hclean.lookup_eq_none (.inr (.inr htmp))]
          rfl
        · rw [h.untouched x (by simp [Leftover, *]) hx]
          simp
  · -- there is nothing left to unlink
    intro hmem
    obtain ⟨hkey, hsuffix⟩ := List.mem_filter.1 hmem
    have hx := List.isSuffixOf_iff_suffix.1 hsuffix
    rw [← AList.mem_keys, ← AList.lookup_isSome, hother x (hnotTaken (.inr (.inr hx)))
      fun f _ => ne_savedName_of_suffix hx f, h.tmp x hx] at hkey
    cases hkey

/-! ## The tree that is given back -/

/-- **The tree is given back**: after the operations up to the
interruption and `restore_saved_files` every name holds what it held. -/
def RestoresTree (rewrite : Text → Text) (isText : Text → Bool) (files : List Text)
    (tree : SourceTree) (n : ℕ) (cut : Option ℕ) : Prop :=
  ∀ x, (restoreSavedFiles (run (interrupt (preprocessCppFiles rewrite isText files tree) n cut)
    tree)).lookup x = tree.lookup x

/-- **A point the tree can be restored from**: no rewritten text was
written and not moved to its place, and rewriting leaves a file as it is
that was taken up again. -/
def RestorePoint (rewrite : Text → Text) (tree : SourceTree) (ops : List (Op Text Char)) : Prop :=
  createdBy ops = none ∧ ∀ f content, tree.lookup f = some content →
    (rewritten rewrite)^[(takenUp ops).count f - 1] content = content

theorem restorePoint_of_nodup {ops : List (Op Text Char)} (hcreated : createdBy ops = none)
    (hnodup : (takenUp ops).Nodup) : RestorePoint rewrite tree ops := by
  refine ⟨hcreated, fun f content _ => ?_⟩
  have hcount : (takenUp ops).count f - 1 = 0 := by
    have := List.nodup_iff_count_le_one.1 hnodup f
    omega
  rw [hcount]
  rfl

theorem restoresTree_iff (hclean : NoLeftovers tree) (rewrite : Text → Text) (isText : Text → Bool)
    (files : List Text) (n : ℕ) (cut : Option ℕ) :
    RestoresTree rewrite isText files tree n cut ↔
      RestorePoint rewrite tree (interrupt (preprocessCppFiles rewrite isText files tree) n cut) := by
  generalize hops : interrupt (preprocessCppFiles rewrite isText files tree) n cut = ops
  have h := interrupted_preprocessCppFiles hclean isText files n cut hops
  have hlook := h.lookup_restoreSavedFiles hclean
  unfold RestoresTree
  rw [hops]
  constructor
  · intro hrestores
    refine ⟨?_, fun f content hf => ?_⟩
    · -- its file would still be there
      by_contra hcreated
      obtain ⟨f, hf⟩ := Option.ne_none_iff_exists'.1 hcreated
      have hsome := (h.created f).2 hf
      have hgone := hrestores (createdName f)
      rw [hlook, if_pos (suffix_createdName f),
        hclean.lookup_eq_none (leftover_createdName f)] at hgone
      rw [hgone] at hsome
      cases hsome
    · have hleft : ¬ Leftover f := hclean f (AList.lookup_isSome.1 (by rw [hf]; rfl))
      have hback := hrestores f
      rw [hlook, if_neg fun hsuffix => hleft (.inr (.inl hsuffix)), hf] at hback
      exact Option.some.inj hback
  · rintro ⟨hcreated, hunchanged⟩ x
    rw [hlook]
    split_ifs with hsuffix
    · obtain ⟨f, hfx⟩ := hsuffix
      obtain rfl : x = createdName f := hfx.symm
      have hnone : ¬ (AList.lookup (createdName f) (run ops tree)).isSome = true := by
        rw [h.created f, hcreated]
        simp
      rw [hclean.lookup_eq_none (leftover_createdName f)]
      exact Option.not_isSome_iff_eq_none.1 hnone
    · cases hx : tree.lookup x with
      | none => rfl
      | some content => rw [Option.map_some, hunchanged x content hx]

/-- A tree of two files. -/
def twoFiles : SourceTree :=
  List.toAList [⟨"a.c".toList, "int a;".toList⟩, ⟨"b.c".toList, "int b;".toList⟩]

theorem noLeftovers_twoFiles : NoLeftovers twoFiles := by
  intro x hx
  have hkeys : x ∈ ["a.c".toList, "b.c".toList] := hx
  simp only [List.mem_cons, List.not_mem_nil, or_false] at hkeys
  rcases hkeys with rfl | rfl <;> decide

/-- Interrupted while it copies the second file. -/
theorem restoresTree_iff_twoFiles : RestoresTree (fun _ => []) (fun _ => true)
    ["a.c".toList, "b.c".toList] twoFiles 5 (some 2) :=
  (restoresTree_iff noLeftovers_twoFiles _ _ _ _ _).2
    (restorePoint_of_nodup (by decide +kernel) (by decide +kernel))

/-- Interrupted before the rewritten text of the first file is moved to
its place: `a.c.tmp.created_by_call_tree` is left behind. -/
theorem not_restoresTree_created : ¬ RestoresTree (fun _ => []) (fun _ => true)
    ["a.c".toList, "b.c".toList] twoFiles 3 none := by
  intro h
  exact absurd (h (createdName "a.c".toList)) (by decide +kernel)

end Calltree

end CppEtudes
