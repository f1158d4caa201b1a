import CppEtudes.Calltree.Model.MergeLines

/-!
# `merge_lines` — blocks of consecutive lines

A match that `ag` prints is a block of consecutive lines of one file.
With breaks between the blocks, `merge_lines` returns each block with its
first and last line. Without them it returns the blocks too, but a block
that another one follows gets the first line of that one as its last.
-/

namespace CppEtudes

namespace Calltree

/-- **A match block**: match lines of one file with consecutive numbers,
at least one. -/
structure Block where
  file : Text
  first : ℕ
  texts : List Text
  lines : List Text
  nonempty : texts ≠ []
  matched : lines.map threeParts = (texts.zipIdx first).map fun t => some ⟨file, t.2, t.1⟩

/-- Break lines, at least one. -/
structure Breaks where
  lines : List Text
  nonempty : lines ≠ []
  unmatched : ∀ line ∈ lines, threeParts line = none

namespace Block

def last (b : Block) : ℕ := b.first + b.texts.length - 1

/-- The quadruple of a block. -/
def merged (b : Block) : Merged := ⟨b.file, b.first, b.last, b.texts.flatten⟩

def parts (b : Block) : List Parts := (b.texts.zipIdx b.first).map fun t => ⟨b.file, t.2, t.1⟩

/-- What the first line of the block matches. -/
def head (b : Block) : Parts := ⟨b.file, b.first, b.texts.head b.nonempty⟩

/-- What the further lines of the block match. -/
def tail (b : Block) : List Parts :=
  (b.texts.tail.zipIdx (b.first + 1)).map fun t => ⟨b.file, t.2, t.1⟩

theorem parts_eq (b : Block) : b.parts = b.head :: b.tail := by
  obtain ⟨text, texts, htexts⟩ := List.exists_cons_of_ne_nil b.nonempty
  simp only [parts, head, tail, htexts, List.zipIdx_cons, List.map_cons, List.head_cons,
    List.tail_cons]

theorem last_eq (b : Block) : b.last = b.first + b.texts.tail.length := by
  have h := List.length_pos_iff.2 b.nonempty
  rw [last, List.length_tail]
  omega

theorem flatten_texts (b : Block) :
    b.texts.flatten = b.texts.head b.nonempty ++ b.texts.tail.flatten := by
  rw [← List.flatten_cons, List.cons_head_tail]

theorem map_threeParts (b : Block) : b.lines.map threeParts = b.parts.map some := by
  rw [b.matched, parts, List.map_map]
  rfl

theorem map_threeParts_getD (outer : Parts) (b : Block) :
    (b.lines.map fun line => (threeParts line).getD outer) = b.parts := by
  have h := congrArg (List.map fun p : Option Parts => p.getD outer) b.map_threeParts
  rw [List.map_map, List.map_map] at h
  refine h.trans ?_
  exact List.map_id'' (fun _ => rfl) _

/-- The block `b'` goes on directly where `b` ends. -/
def ContinuedBy (b b' : Block) : Prop := b'.file = b.file ∧ b.last + 1 = b'.first

instance (b b' : Block) : Decidable (b.ContinuedBy b') := inferInstanceAs (Decidable (_ ∧ _))

end Block

/-- The block lines, with the breaks between them. -/
def withBreaks (b : Block) (bs : List (Breaks × Block)) : List Text :=
  b.lines ++ bs.flatMap fun s => s.1.lines ++ s.2.lines

def withoutBreaks (b : Block) (bs : List (Breaks × Block)) : List Text :=
  b.lines ++ bs.flatMap fun s => s.2.lines

def blocksOf (b : Block) (bs : List (Breaks × Block)) : List Block := b :: bs.map Prod.snd

/-! ## With breaks -/

section Enabled

variable (rest : List (Option Parts))

/-- The further lines of a match are put to it, and then the line before
the next element is the last of them. -/
theorem breakEnabledLoop_lines (file : Text) (texts : List Text) :
    ∀ (p : Parts) (before : Option Parts), ∃ before',
      linenoOf before' = linenoOf before + texts.length ∧
      breakEnabledLoop (some p) before
          (((texts.zipIdx (linenoOf before + 1)).map fun t => some ⟨file, t.2, t.1⟩) ++ rest) =
        breakEnabledLoop (some { p with text := p.text ++ texts.flatten }) before' rest := by
  induction texts with
  | nil =>
    intro p before
    exact ⟨before, rfl, by simp⟩
  | cons text texts ih =>
    intro p before
    let next : Parts := ⟨file, linenoOf before + 1, text⟩
    obtain ⟨before', hno, hloop⟩ := ih { p with text := p.text ++ text } (some next)
    have hnext : linenoOf (some next) = linenoOf before + 1 := rfl
    rw [hnext] at hno hloop
    refine ⟨before', by rw [hno, List.length_cons]; omega, ?_⟩
    rw [List.zipIdx_cons, List.map_cons, List.cons_append, breakEnabledLoop, hloop,
      List.flatten_cons, List.append_assoc]

/-- At the end of a block its match is open, with its first line, and the
line before the next element is its last. -/
theorem breakEnabledLoop_block (b : Block) (before : Option Parts) : ∃ before',
    linenoOf before' = b.last ∧
    breakEnabledLoop none before (b.parts.map some ++ rest) =
      breakEnabledLoop (some ⟨b.file, b.first, b.texts.flatten⟩) before' rest := by
  obtain ⟨before', hno, hloop⟩ :=
    breakEnabledLoop_lines rest b.file b.texts.tail b.head (some b.head)
  refine ⟨before', hno.trans b.last_eq.symm, ?_⟩
  rw [b.parts_eq, List.map_cons, List.cons_append, breakEnabledLoop, Block.tail, List.map_map,
    b.flatten_texts]
  exact hloop

/-- Break lines where no match is open are skipped. -/
theorem breakEnabledLoop_unmatched {lines : List Text}
    (h : ∀ line ∈ lines, threeParts line = none) :
    breakEnabledLoop none none (lines.map threeParts ++ rest) = breakEnabledLoop none none rest := by
  induction lines with
  | nil => rfl
  | cons line lines ih =>
    rw [List.map_cons, List.cons_append, h line List.mem_cons_self, breakEnabledLoop]
    exact ih fun l hl => h l (List.mem_cons_of_mem _ hl)

/-- Breaks close the match that is open. -/
theorem breakEnabledLoop_breaks (p : Parts) (before : Option Parts) (s : Breaks) :
    breakEnabledLoop (some p) before (s.lines.map threeParts ++ rest) =
      ⟨p.file, p.lineno, linenoOf before, p.text⟩ :: breakEnabledLoop none none rest := by
  obtain ⟨line, lines, hlines⟩ := List.exists_cons_of_ne_nil s.nonempty
  have hnone := s.unmatched
  rw [hlines] at hnone
  rw [hlines, List.map_cons, List.cons_append, hnone line List.mem_cons_self, breakEnabledLoop]
  congr 1
  exact breakEnabledLoop_unmatched rest fun l hl => hnone l (List.mem_cons_of_mem _ hl)

/-- **With breaks every block is returned with its first and last line.** -/
theorem mergeLinesMultilineBreakEnabled_blocks (b : Block) (bs : List (Breaks × Block)) :
    mergeLinesMultilineBreakEnabled (withBreaks b bs) = (blocksOf b bs).map Block.merged := by
  induction bs generalizing b with
  | nil =>
    obtain ⟨before, hno, hloop⟩ := breakEnabledLoop_block [] b none
    rw [List.append_nil] at hloop
    rw [mergeLinesMultilineBreakEnabled, withBreaks, List.flatMap_nil, List.append_nil,
      b.map_threeParts, hloop, breakEnabledLoop, hno]
    rfl
  | cons s bs ih =>
    obtain ⟨before, hno, hloop⟩ := breakEnabledLoop_block
      (s.1.lines.map threeParts ++ (withBreaks s.2 bs).map threeParts) b none
    have hlines : withBreaks b (s :: bs) = b.lines ++ (s.1.lines ++ withBreaks s.2 bs) := by
      rw [withBreaks, withBreaks, List.flatMap_cons, List.append_assoc]
    rw [mergeLinesMultilineBreakEnabled, hlines, List.map_append, List.map_append,
      b.map_threeParts, hloop, breakEnabledLoop_breaks, hno]
    exact congrArg (b.merged :: ·) (ih s.2)

end Enabled

/-! ## Without breaks -/

section Disabled

variable (rest : List Parts)

/-- The further lines of a match are put to it while they are adjacent. -/
theorem breakDisabledLoop_lines (texts : List Text) :
    ∀ p before : Parts, ∃ before' : Parts,
      before'.lineno = before.lineno + texts.length ∧
      breakDisabledLoop p before.lineno before
          (((texts.zipIdx (before.lineno + 1)).map fun t => ⟨p.file, t.2, t.1⟩) ++ rest) =
        breakDisabledLoop { p with text := p.text ++ texts.flatten } before'.lineno before' rest := by
  induction texts with
  | nil =>
    intro p before
    exact ⟨before, rfl, by simp⟩
  | cons text texts ih =>
    intro p before
    let next : Parts := ⟨p.file, before.lineno + 1, text⟩
    obtain ⟨before', hno, hloop⟩ := ih { p with text := p.text ++ text } next
    refine ⟨before', by rw [hno, List.length_cons]; simp only [next]; omega, ?_⟩
    rw [List.zipIdx_cons, List.map_cons, List.cons_append, breakDisabledLoop,
      if_pos ⟨rfl, rfl⟩, List.flatten_cons, ← List.append_assoc]
    exact hloop

/-- At the end of a block its match is open, and the last adjacent line is
the block's last. -/
theorem breakDisabledLoop_block (b : Block) : ∃ before : Parts, before.lineno = b.last ∧
    breakDisabledLoop b.head b.first b.head (b.tail ++ rest) =
      breakDisabledLoop ⟨b.file, b.first, b.texts.flatten⟩ b.last before rest := by
  obtain ⟨before, hno, hloop⟩ := breakDisabledLoop_lines rest b.texts.tail b.head b.head
  have hlast : before.lineno = b.last := hno.trans b.last_eq.symm
  refine ⟨before, hlast, ?_⟩
  rw [b.flatten_texts, ← hlast]
  exact hloop

/-- What `merge_lines` returns without breaks: a block that another one
follows with the first line of that one as its last. -/
def overrun : List Block → List Merged
  | [] => []
  | [b] => [b.merged]
  | b :: b' :: bs => { b.merged with endLineno := b'.first } :: overrun (b' :: bs)

theorem breakDisabledLoop_blocks (b : Block) (bs : List Block)
    (h : (b :: bs).IsChain fun b b' => ¬ b.ContinuedBy b') :
    breakDisabledLoop b.head b.first b.head (b.tail ++ bs.flatMap Block.parts) =
      overrun (b :: bs) := by
  induction bs generalizing b with
  | nil =>
    obtain ⟨before, hno, hloop⟩ := breakDisabledLoop_block [] b
    rw [List.flatMap_nil, hloop, breakDisabledLoop, hno]
    rfl
  | cons b' bs ih =>
    obtain ⟨hb, hbs⟩ := List.isChain_cons_cons.1 h
    obtain ⟨before, -, hloop⟩ := breakDisabledLoop_block ((b' :: bs).flatMap Block.parts) b
    -- the next block does not continue this one, so its first line closes it
    rw [hloop, List.flatMap_cons, b'.parts_eq, List.cons_append, breakDisabledLoop]
    exact (if_neg hb).trans (congrArg (_ :: ·) (ih b' hbs))

/-- **Without breaks the blocks are told apart**, where none continues the
one before it, but with the first line of the next block as the last. -/
theorem mergeLinesMultilineBreakDisabled_blocks (outer : Parts) (b : Block)
    (bs : List (Breaks × Block))
    (h : (blocksOf b bs).IsChain fun b b' => ¬ b.ContinuedBy b') :
    mergeLinesMultilineBreakDisabled outer (withoutBreaks b bs) = some (overrun (blocksOf b bs)) := by
  have hparts : ((withoutBreaks b bs).map fun line => (threeParts line).getD outer) =
      b.head :: (b.tail ++ (bs.map Prod.snd).flatMap Block.parts) := by
    rw [withoutBreaks, List.map_append, b.map_threeParts_getD, List.map_flatMap, b.parts_eq,
      List.cons_append, List.flatMap_map]
    simp only [Block.map_threeParts_getD]
  rw [mergeLinesMultilineBreakDisabled, hparts]
  exact congrArg some (breakDisabledLoop_blocks b _ h)

end Disabled

/-- The last lines are right exactly where each next block begins at the
number the block before it ends at. -/
theorem overrun_eq_iff (bs : List Block) :
    overrun bs = bs.map Block.merged ↔ bs.IsChain fun b b' => b'.first = b.last := by
  induction bs with
  | nil => simp [overrun]
  | cons b bs ih =>
    cases bs with
    | nil => simp [overrun]
    | cons b' bs =>
      rw [overrun, List.map_cons, List.cons.injEq, ih, List.isChain_cons_cons]
      simp only [Block.merged, Merged.mk.injEq, true_and, and_true]

/-- **When `merge_lines` returns the same with and without breaks**: for
blocks of which none continues the one before it, both ways return the
blocks with their first and last lines exactly where every next block
begins at the line number the one before it ends at. -/
theorem mergeLines_agree_iff (outer : Parts) (b : Block) (bs : List (Breaks × Block))
    (h : (blocksOf b bs).IsChain fun b b' => ¬ b.ContinuedBy b') :
    (mergeLines true outer (withBreaks b bs) = some ((blocksOf b bs).map Block.merged) ∧
      mergeLines false outer (withoutBreaks b bs) = mergeLines true outer (withBreaks b bs)) ↔
    (blocksOf b bs).IsChain fun b b' => b'.first = b.last := by
  have hon : mergeLines true outer (withBreaks b bs) = some ((blocksOf b bs).map Block.merged) :=
    congrArg some (mergeLinesMultilineBreakEnabled_blocks b bs)
  have hoff : mergeLines false outer (withoutBreaks b bs) = some (overrun (blocksOf b bs)) :=
    mergeLinesMultilineBreakDisabled_blocks outer b bs h
  rw [hon, hoff, and_iff_right rfl, Option.some.injEq, overrun_eq_iff]

/-- Lines 3 to 4 of one file. -/
def twoLines : Block where
  file := ['a', '.', 'h']
  first := 3
  texts := [['x'], ['y']]
  lines := ["a.h:3:x".toList, "a.h:4:y".toList]
  nonempty := nofun
  matched := by decide

/-- A line of another file, with the number the other block ends at. -/
def lineFour : Block where
  file := ['b', '.', 'h']
  first := 4
  texts := [['z']]
  lines := ["b.h:4:z".toList]
  nonempty := nofun
  matched := by decide

/-- A line of the same file further down. -/
def lineNine : Block where
  file := ['a', '.', 'h']
  first := 9
  texts := [['z']]
  lines := ["a.h:9:z".toList]
  nonempty := nofun
  matched := by decide

/-- The line `--`. -/
def breakDashes : Breaks where
  lines := ["--".toList]
  nonempty := nofun
  unmatched := by decide

theorem mergeLines_agree_iff_twoFiles :
    mergeLines false ⟨[], 0, []⟩ (withoutBreaks twoLines [(breakDashes, lineFour)]) =
      mergeLines true ⟨[], 0, []⟩ (withBreaks twoLines [(breakDashes, lineFour)]) :=
  ((mergeLines_agree_iff ⟨[], 0, []⟩ twoLines [(breakDashes, lineFour)]
    (.cons_cons (by decide) (.singleton _))).2 (.cons_cons (by decide) (.singleton _))).2

/-- The block of lines 3 and 4 is returned as lines 3 to 9. -/
theorem mergeLines_overrun :
    (blocksOf twoLines [(breakDashes, lineNine)]).IsChain (fun b b' => ¬ b.ContinuedBy b') ∧
    mergeLines true ⟨[], 0, []⟩ (withBreaks twoLines [(breakDashes, lineNine)]) =
      some [⟨"a.h".toList, 3, 4, "xy".toList⟩, ⟨"a.h".toList, 9, 9, "z".toList⟩] ∧
    mergeLines false ⟨[], 0, []⟩ (withoutBreaks twoLines [(breakDashes, lineNine)]) =
      some [⟨"a.h".toList, 3, 9, "xy".toList⟩, ⟨"a.h".toList, 9, 9, "z".toList⟩] :=
  ⟨.cons_cons (by decide) (.singleton _), by decide, by decide⟩

end Calltree

end CppEtudes
