import CppEtudes.Calltree.Model.Preprocess

/-!
# The lines of a rewritten file

A rewriting step keeps the lines if what it puts in for a match has as
many newlines: because it keeps the line ends (`blank_lines`), because it
puts in blank lines and the match does not end in a newline, or because
the pattern has no newline to match. Three steps do none of this: they
take a match away whose pattern runs over lines.
-/

namespace CppEtudes

namespace Calltree

open Regex Edit

/-! ## Steps that keep the lines -/

theorem steady_blankLines (m : Match) : Steady (blankLines m) := steady_keepOnly rfl m

theorem keepsLines_blankLines (r : Regex) (t : Text) : KeepsLines (gsub r blankLines t) :=
  (steady_gsub fun m _ => steady_blankLines m).keepsLines

/-- A pattern without newlines, and a text without. -/
theorem keepsLines_replaceByText {r : Regex} {new : String} (hr : r.avoids '\n' = true)
    (hnew : '\n' ∉ new.toList) (t : Text) : KeepsLines (gsub r (replaceByText new) t) := by
  refine (steady_gsub fun m hm => steady_replace ?_).keepsLines
  have hold := (not_mem_of_avoids hr).of_found_mem hm
  rw [lines_eq_zero hold, lines_eq_zero hnew]

/-- A text that does not end in a newline has a line more than it has
newlines. -/
theorem length_splitLines_sub_one {t : Text} (h : ∀ c ∈ t.getLast?, c ≠ '\n') :
    (splitLines t).length - 1 = lines t := by
  have hle : (splitLines t).length ≤ lines t + 1 := by
    rw [← length_splitOn]
    exact (List.rdropWhile_prefix _ _).length_le
  -- otherwise newlines would be left over at the end
  have hnone : lines t - ((splitLines t).length - 1) = 0 := by
    by_contra hne
    obtain ⟨k, hk⟩ := Nat.exists_eq_succ_of_ne_zero hne
    have htext := intercalate_splitLines t
    rw [hk, List.replicate_succ', ← List.append_assoc] at htext
    refine h '\n' ?_ rfl
    rw [← htext, List.getLast?_concat]
    rfl
  omega

theorem lines_withBlankLines (var ls : Text) :
    lines (withBlankLines var ls) = lines var + ((splitLines ls).length - 1) := by
  have hblank : ∀ fields : List Text,
      lines (['\n'].intercalate (fields.map fun _ => [])) = fields.length - 1 := by
    intro fields
    induction fields with
    | nil => rfl
    | cons l fields ih =>
      cases fields with
      | nil => rfl
      | cons l' fields =>
        simp only [List.map_cons, intercalate_cons_cons, List.nil_append, List.length_cons,
          Nat.add_sub_cancel] at ih ⊢
        rw [← List.singleton_append, lines_append, ih]
        exact Nat.add_comm _ _
  rw [withBlankLines, lines_append, hblank]

/-- A match that does not end in a newline, and blank lines for it. -/
theorem keepsLines_withBlankLines {r : Regex} {var : Text} (hr : endsNot '\n' true r = true)
    (hvar : '\n' ∉ var) (t : Text) : KeepsLines (gsub r (replaceBy (withBlankLines var)) t) := by
  refine (steady_gsub fun m hm => steady_replace ?_).keepsLines
  have hends : EndsNot '\n' true m :=
    Matcher.Only.of_found_mem (only_run_of_endsNot r hr fun _ _ _ _ h => by cases h) hm
  rw [lines_withBlankLines, lines_eq_zero hvar, Nat.zero_add, length_splitLines_sub_one]
  intro c hc
  rw [Match.text, List.getLast?_map] at hc
  obtain ⟨x, hx, rfl⟩ := Option.map_eq_some_iff.1 hc
  exact hends.2 x hx

/-! ### The steps within a line -/

/-- A substitution that edits its text, and puts no newline in. -/
def StaysInLine (f : Text → Edit) : Prop :=
  ∀ l, source (f l) = l ∧ ('\n' ∉ l → '\n' ∉ target (f l))

theorem staysInLine_replaceByText {new : String} (hnew : '\n' ∉ new.toList) (r : Regex) :
    StaysInLine (gsub r (replaceByText new)) := by
  refine fun l => ⟨source_gsub (source_replaceBy _), fun hl => not_mem_target_gsub hl fun m _ => ?_⟩
  rw [replaceByText, replaceBy, target_append, target_map_drop, target_map_add, List.nil_append]
  exact hnew

theorem staysInLine_runSteps {fs : List (Text → Edit)} (h : ∀ f ∈ fs, StaysInLine f) :
    StaysInLine (runSteps fs) := by
  induction fs with
  | nil =>
    intro l
    refine ⟨source_map_keep l, fun hl hmem => hl ?_⟩
    obtain ⟨p, hp, hd⟩ := List.mem_flatMap.1 hmem
    obtain ⟨c, hc, rfl⟩ := List.mem_map.1 hp
    exact List.mem_singleton.1 hd ▸ hc
  | cons f fs ih =>
    intro l
    have hrest := ih fun g hg => h g (by simp [hg])
    obtain ⟨hsource, htarget⟩ := h f (by simp) l
    refine ⟨by rw [runSteps, source_comp _ (hrest _).1, hsource], fun hl => ?_⟩
    rw [runSteps, target_comp _ (hrest _).1]
    exact (hrest _).2 (htarget hl)

theorem staysInLine_of_mem_replaceInLine : ∀ f ∈ replaceInLine, StaysInLine f := by
  simp only [replaceInLine, replaceWhitespaces, List.cons_append, List.nil_append,
    List.forall_mem_cons, List.not_mem_nil, false_imp_iff, implies_true, and_true]
  exact ⟨staysInLine_replaceByText (by decide) _, staysInLine_replaceByText (by decide) _,
    staysInLine_replaceByText (by decide) _, staysInLine_replaceByText (by decide) _,
    staysInLine_replaceByText (by decide) _, staysInLine_replaceByText (by decide) _,
    staysInLine_replaceByText (by decide) _⟩

theorem keepsLines_byLine_of_staysInLine {f : Text → Edit} (h : StaysInLine f) (t : Text) :
    KeepsLines (byLine f t) := keepsLines_byLine (fun l => (h l).1) (fun l => (h l).2) t

/-! ## Steps that take matches away -/

theorem keepsLines_remove_iff {r : Regex} (hr : r.capFree = true) {t : Text} :
    KeepsLines (gsub r (replaceByText "") t) ↔ NoLineLost r t := by
  have h : gsub r (replaceByText "") t = (marks r t).map keepMarked := gsub_replaceBy_nil hr t
  rw [h, keepsLines_map_keepMarked_iff]

theorem keepsLines_replaceStdFunction_iff {t : Text} :
    KeepsLines (replaceStdFunction t) ↔ NoLineLost reStdFunction t := by
  rw [replaceStdFunction, gsub_keepGroup, keepsLines_map_keepMarked_iff]

/-- The patterns of the steps that take a match away, over its lines. -/
def lineLosingPatterns : List Regex := [reGccAttribute, reStdFunction, reNoexceptThrow]

theorem keepsLines_of_mem_rewritingSteps {text : Text}
    (h : ∀ r ∈ lineLosingPatterns, NoLineLost r text) :
    ∀ step ∈ rewritingSteps, KeepsLines (step text) := by
  simp only [lineLosingPatterns, List.forall_mem_cons, List.not_mem_nil, false_imp_iff, implies_true,
    and_true] at h
  obtain ⟨hgcc, hstd, hthrow⟩ := h
  simp only [rewritingSteps, List.forall_mem_cons, List.not_mem_nil, false_imp_iff, implies_true,
    and_true]
  exact ⟨keepsLines_blankLines _ _, keepsLines_withBlankLines (by decide) (by decide) _,
    keepsLines_blankLines _ _,
    keepsLines_byLine_of_staysInLine (staysInLine_replaceByText (by decide) _) _,
    keepsLines_blankLines _ _, keepsLines_replaceByText (by decide) (by decide) _,
    keepsLines_withBlankLines (by decide) (by decide) _,
    keepsLines_byLine_of_staysInLine (staysInLine_runSteps staysInLine_of_mem_replaceInLine) _,
    keepsLines_replaceByText (by decide) (by decide) _, (keepsLines_remove_iff (by decide)).2 hgcc,
    keepsLines_blankLines _ _, keepsLines_replaceStdFunction_iff.2 hstd,
    (keepsLines_remove_iff (by decide)).2 hthrow, keepsLines_replaceByText (by decide) (by decide) _,
    keepsLines_blankLines _ _, keepsLines_blankLines _ _, keepsLines_blankLines _ _⟩

/-- **Every step keeps the lines of a text if and only if none of the
three patterns takes a newline away before what stays.** -/
theorem keepsLines_rewritingSteps_iff (text : Text) :
    (∀ step ∈ rewritingSteps, KeepsLines (step text)) ↔
      ∀ r ∈ lineLosingPatterns, NoLineLost r text := by
  refine ⟨fun h => ?_, keepsLines_of_mem_rewritingSteps⟩
  have hgcc : KeepsLines (removeGccAttributes text) := h _ (by simp [rewritingSteps])
  have hstd : KeepsLines (replaceStdFunction text) := h _ (by simp [rewritingSteps])
  have hthrow : KeepsLines (removeNoexceptAndThrow text) := h _ (by simp [rewritingSteps])
  simp only [lineLosingPatterns, List.forall_mem_cons, List.not_mem_nil, false_imp_iff, implies_true,
    and_true]
  exact ⟨(keepsLines_remove_iff (by decide)).1 hgcc, keepsLines_replaceStdFunction_iff.1 hstd,
    (keepsLines_remove_iff (by decide)).1 hthrow⟩

/-- An attribute over two lines, and a function behind it. -/
def attributeText : Text := "__attribute__((a,\nb))f".toList

theorem not_keepsLines_attributeText :
    ¬ ∀ step ∈ rewritingSteps, KeepsLines (step attributeText) := by
  intro h
  have hgcc : KeepsLines (removeGccAttributes attributeText) := h _ (by simp [rewritingSteps])
  have hline := hgcc (attributeText.dropLast.map .drop) 'f' [] (by decide +kernel)
    ⟨'f', by simp, by decide⟩
  exact absurd hline (by decide +kernel)

/-! ## The whole rewriting -/

theorem source_repeatApply {f : Text → Edit} (hf : ∀ t, source (f t) = t) (r : Regex) (n : ℕ) :
    ∀ t, source (repeatApply f r n t) = t := by
  induction n with
  | zero => exact hf
  | succ n ih =>
    intro t
    rw [repeatApply]
    split_ifs
    · rw [source_comp _ (ih _), hf]
    · exact hf t

theorem keepsCharLines_repeatApply {f : Text → Edit} (hf : ∀ t, source (f t) = t)
    (hlines : ∀ t, KeepsCharLines (f t)) (r : Regex) (n : ℕ) :
    ∀ t, KeepsCharLines (repeatApply f r n t) := by
  induction n with
  | zero => exact hlines
  | succ n ih =>
    intro t
    rw [repeatApply]
    split_ifs
    · exact (hlines t).comp (source_repeatApply hf r n _) (ih _)
    · exact hlines t

theorem source_blankLines (r : Regex) (t : Text) : source (gsub r blankLines t) = t :=
  source_gsub (source_keepOnly _)

theorem source_of_mem_preprocessSteps : ∀ f ∈ preprocessSteps, ∀ t, source (f t) = t := by
  have hreplace : ∀ new r t, source (gsub r (replaceBy new) t) = t := fun new r t =>
    source_gsub (source_replaceBy new)
  simp only [preprocessSteps, List.forall_mem_cons, List.not_mem_nil, false_imp_iff, implies_true,
    and_true]
  exact ⟨source_repeatApply (source_blankLines _) _ _, hreplace _ _, source_blankLines _,
    source_byLine (hreplace _ _), source_blankLines _, hreplace _ _, hreplace _ _,
    source_byLine fun l => (staysInLine_runSteps staysInLine_of_mem_replaceInLine l).1,
    hreplace _ _, hreplace _ _, source_repeatApply (source_blankLines _) _ _,
    fun t => source_gsub source_keepGroup, hreplace _ _, hreplace _ _, source_blankLines _,
    source_blankLines _, source_blankLines _⟩

theorem exists_of_mem_stages {fs : List (Text → Edit)} : ∀ {t : Text} {e : Edit},
    e ∈ stages fs t → ∃ f ∈ fs, ∃ u, e = f u := by
  induction fs with
  | nil => intro t e he; cases he
  | cons f fs ih =>
    intro t e he
    rcases List.mem_cons.1 he with rfl | he
    · exact ⟨f, by simp, t, rfl⟩
    · obtain ⟨g, hg, hu⟩ := ih he
      exact ⟨g, by simp [hg], hu⟩

/-- A step of the chain is a step that was shown above, or one of two that
are repeated. -/
theorem keepsCharLines_of_mem_preprocessSteps {text : Text}
    (h : ∀ r ∈ lineLosingPatterns, NoLineLost r text) :
    ∀ f ∈ preprocessSteps, KeepsCharLines (f text) := by
  have hstep := keepsLines_of_mem_rewritingSteps h
  have hrepeat : ∀ r r' n, KeepsCharLines (repeatApply (gsub r blankLines) r' n text) := fun r r' n =>
    keepsCharLines_repeatApply (source_blankLines r)
      (fun t => (keepsLines_blankLines r t).keepsCharLines) r' n text
  simp only [rewritingSteps, List.forall_mem_cons, List.not_mem_nil, false_imp_iff, implies_true,
    and_true] at hstep
  obtain ⟨-, h₂, h₃, h₄, h₅, h₆, h₇, h₈, h₉, h₁₀, -, h₁₂, h₁₃, h₁₄, h₁₅, h₁₆, h₁₇⟩ := hstep
  simp only [preprocessSteps, List.forall_mem_cons, List.not_mem_nil, false_imp_iff, implies_true,
    and_true]
  exact ⟨hrepeat _ _ _, h₂.keepsCharLines, h₃.keepsCharLines, h₄.keepsCharLines, h₅.keepsCharLines,
    h₆.keepsCharLines, h₇.keepsCharLines, h₈.keepsCharLines, h₉.keepsCharLines, h₁₀.keepsCharLines,
    hrepeat _ _ _, h₁₂.keepsCharLines, h₁₃.keepsCharLines, h₁₄.keepsCharLines, h₁₅.keepsCharLines,
    h₁₆.keepsCharLines, h₁₇.keepsCharLines⟩

/-- **The lines of the file that is written are those of the source**: for
a text that loses no line on its way, every character that is kept by the
whole chain stays on its line. -/
theorem keepsCharLines_preprocess {text : Text} (h : ∀ e ∈ stages preprocessSteps text,
      ∀ r ∈ lineLosingPatterns, NoLineLost r (source e)) :
    source (runSteps preprocessSteps text) = text ∧
      target (runSteps preprocessSteps text) = preprocessContent text ∧
      KeepsCharLines (runSteps preprocessSteps text) := by
  refine ⟨source_runSteps source_of_mem_preprocessSteps text, rfl,
    keepsCharLines_runSteps source_of_mem_preprocessSteps fun e he => ?_⟩
  obtain ⟨f, hf, u, rfl⟩ := exists_of_mem_stages he
  have hu := h _ he
  rw [source_of_mem_preprocessSteps f hf] at hu
  exact keepsCharLines_of_mem_preprocessSteps hu f hf

end Calltree

end CppEtudes
