import CppEtudes.Common.Edit
import CppEtudes.Csvtable.Normalise
import CppEtudes.Csvtable.Utf8
import Mathlib.Algebra.Ring.Nat
import Mathlib.Order.Bounds.Defs

/-!
# The table is aligned

A cell is printed behind a blank and with blanks up to the width of its
column, counted in characters as `utf8_length` counts them. So every line
that is printed has the same number of characters.
-/

namespace CppEtudes

namespace Csvtable

open Calltree (Text isSpace)

/-! ## Cells without a newline -/

theorem mem_of_mem_trim {line : Text} {c : Char} (h : c ∈ trim line) : c ∈ line :=
  (List.dropWhile_sublist _).subset ((List.rdropWhile_prefix _ _).subset h)

theorem trim_append_newline (line : Text) : trim (line ++ ['\n']) = trim line := by
  have hspace : isSpace '\n' = true := by decide
  unfold trim
  rw [List.dropWhile_append]
  split_ifs with hblank
  · rw [List.dropWhile_cons_of_pos hspace, List.isEmpty_iff.1 hblank, List.dropWhile_nil]
  · rw [List.rdropWhile_concat_pos _ _ _ hspace]

theorem newline_notMem_trim {input line : Text} (h : line ∈ readLines input) :
    '\n' ∉ trim line := by
  have hpieces : ∀ piece ∈ input.splitOn '\n', '\n' ∉ trim piece := fun piece hpiece hmem =>
    Edit.not_mem_of_mem_splitOn piece hpiece (mem_of_mem_trim hmem)
  rcases List.mem_append.1 h with h | h
  · obtain ⟨piece, hpiece, rfl⟩ := List.mem_map.1 h
    rw [trim_append_newline]
    exact hpieces piece (List.mem_of_mem_dropLast hpiece)
  · have hne : input.splitOn '\n' ≠ [] := List.splitOnP_ne_nil _ _
    have hlast : (input.splitOn '\n').getLastD [] ∈ input.splitOn '\n' := by
      rw [List.getLastD_eq_getLast?, List.getLast?_eq_some_getLast hne, Option.getD_some]
      exact List.getLast_mem hne
    rw [List.mem_singleton.1 (List.mem_of_mem_filter h)]
    exact hpieces _ hlast

theorem mem_intercalate {sep text : Text} {texts : List Text} {c : Char} (htext : text ∈ texts)
    (h : c ∈ text) : c ∈ sep.intercalate texts := by
  induction texts with
  | nil => cases htext
  | cons t texts ih =>
    cases texts with
    | nil =>
      obtain rfl := List.mem_singleton.1 htext
      simpa using h
    | cons t' texts =>
      rw [List.intercalate_cons_cons, List.mem_append, List.mem_append]
      rcases List.mem_cons.1 htext with rfl | htext
      · exact .inl (.inl h)
      · exact .inr (ih htext)

/-- The cells of the input are texts of one line. -/
theorem newline_notMem_cell {input text : Text} {row : Row}
    (hrow : row ∈ (parse input).reduceOption) (h : text ∈ row) : '\n' ∉ text := by
  rw [List.reduceOption_mem_iff, parse, List.mem_map] at hrow
  obtain ⟨line, hline, hparse⟩ := hrow
  unfold parseLine at hparse
  split_ifs at hparse
  obtain rfl := Option.some.inj hparse
  obtain ⟨piece, hpiece, rfl⟩ := List.mem_map.1 ((List.rdropWhile_prefix _ _).subset h)
  intro hmem
  have hcell : '\n' ∈ [','].intercalate ((trim line).splitOn ',') :=
    mem_intercalate hpiece (mem_of_mem_trim hmem)
  rw [List.intercalate_splitOn] at hcell
  exact newline_notMem_trim hline hcell

/-! ## Widths -/

/-- The number of characters of a text that is accepted. -/
def charLen (text : Text) : ℕ := (utf8Length text).toOption.getD 0

/-- Every cell is accepted. -/
def Accepted (data : List (Option Row)) : Prop :=
  ∀ row ∈ data.reduceOption, ∀ text ∈ row, (validateUtf8 text).isOk = true

variable {data : List (Option Row)} {row : Row}

/-- A cell that is missing is empty. -/
theorem cell_mem_or_eq_nil (row : Row) (c : ℕ) : cell row c ∈ row ∨ cell row c = [] := by
  rw [cell, List.getD_eq_getElem?_getD]
  rcases Nat.lt_or_ge c row.length with hc | hc
  · rw [List.getElem?_eq_getElem hc, Option.getD_some]
    exact .inl (List.getElem_mem hc)
  · rw [List.getElem?_eq_none hc, Option.getD_none]
    exact .inr rfl

theorem utf8Length_cell (hdata : Accepted data) (hrow : row ∈ data.reduceOption) (c : ℕ) :
    utf8Length (cell row c) = .ok (charLen (cell row c)) := by
  have hlen : ∃ n, utf8Length (cell row c) = .ok n := by
    rcases cell_mem_or_eq_nil row c with hmem | hnil
    · exact exists_utf8Length (hdata row hrow _ hmem)
    · exact ⟨0, by rw [hnil]; rfl⟩
  obtain ⟨n, hn⟩ := hlen
  rw [charLen, hn]
  rfl

theorem cell_padRow {n c : ℕ} (hc : c < n) (row : Row) : cell (padRow n row) c = cell row c := by
  unfold cell padRow
  rw [List.getD_eq_getElem?_getD, List.getD_eq_getElem?_getD, List.getElem?_take_of_lt hc]
  rcases Nat.lt_or_ge c row.length with h | h
  · rw [List.getElem?_append_left h]
  · rw [List.getElem?_append_right h, List.getElem?_eq_none h,
      List.getElem?_replicate_of_lt (by omega)]
    rfl

theorem foldl_max_spec (l : List ℕ) (a : ℕ) : a ≤ l.foldl max a ∧ (∀ n ∈ l, n ≤ l.foldl max a) ∧
    (l.foldl max a = a ∨ l.foldl max a ∈ l) := by
  induction l generalizing a with
  | nil => simp
  | cons n l ih =>
    obtain ⟨hle, hall, hmem⟩ := ih (max a n)
    rw [List.foldl_cons]
    refine ⟨by omega, fun m hm => ?_, ?_⟩
    · rcases List.mem_cons.1 hm with rfl | hm
      · omega
      · exact hall m hm
    · rcases hmem with h | h
      · rcases max_choice a n with h' | h' <;> rw [h, h'] <;> simp
      · exact .inr (List.mem_cons_of_mem _ h)

theorem mapM_eq_ok {α β ε : Type} {f : α → Except ε β} {g : α → β} (l : List α)
    (h : ∀ a ∈ l, f a = .ok (g a)) : l.mapM f = .ok (l.map g) := by
  induction l with
  | nil => rfl
  | cons a l ih =>
    rw [List.mapM_cons, h a (by simp), ih fun b hb => h b (by simp [hb])]
    rfl

/-- The longest cell of a column. -/
def width (data : List (Option Row)) (c : ℕ) : ℕ :=
  (data.reduceOption.map fun row => charLen (cell row c)).foldl max 0

def widths (data : List (Option Row)) : List ℕ := (List.range (columnNum data)).map (width data)

theorem charLen_le_width (hrow : row ∈ data.reduceOption) (c : ℕ) :
    charLen (cell row c) ≤ width data c :=
  (foldl_max_spec _ 0).2.1 _ (List.mem_map_of_mem hrow)

theorem isGreatest_width (hdata : Accepted data) (hne : data.reduceOption ≠ []) (c : ℕ) :
    IsGreatest {n | ∃ row ∈ data.reduceOption, utf8Length (cell row c) = .ok n} (width data c) := by
  have hlen : ∀ row ∈ data.reduceOption, ∀ n, utf8Length (cell row c) = .ok n →
      n = charLen (cell row c) := by
    intro row hrow n hn
    exact Except.ok.inj (hn.symm.trans (utf8Length_cell hdata hrow c))
  constructor
  · rcases (foldl_max_spec (data.reduceOption.map fun row => charLen (cell row c)) 0).2.2 with h | h
    · -- all cells are empty
      obtain ⟨row, hrow⟩ := List.exists_mem_of_ne_nil _ hne
      have hle := charLen_le_width hrow c
      refine ⟨row, hrow, ?_⟩
      rw [utf8Length_cell hdata hrow c]
      congr 1
      unfold width at hle ⊢
      omega
    · obtain ⟨row, hrow, heq⟩ := List.mem_map.1 h
      exact ⟨row, hrow, by rw [utf8Length_cell hdata hrow c, heq]; rfl⟩
  · rintro n ⟨row, hrow, hn⟩
    rw [hlen row hrow n hn]
    exact charLen_le_width hrow c

theorem maxLen_padRows (hdata : Accepted data) {c : ℕ} (hc : c < columnNum data) :
    maxLen (padRows data) c = .ok (width data c) := by
  have hcells : ∀ row ∈ data.reduceOption.map (padRow (columnNum data)),
      utf8Length (cell row c) = .ok (charLen (cell row c)) := by
    intro padded hpadded
    obtain ⟨row, hrow, rfl⟩ := List.mem_map.1 hpadded
    rw [cell_padRow hc]
    exact utf8Length_cell hdata hrow c
  rw [maxLen, padRows, List.reduceOption_map, mapM_eq_ok _ hcells, List.map_map]
  have hpad : ((fun row => charLen (cell row c)) ∘ padRow (columnNum data)) =
      fun row => charLen (cell row c) := by
    funext row
    rw [Function.comp_apply, cell_padRow hc]
  rw [hpad]
  rfl

/-! ## Cells as they are printed -/

/-- A blank, the text, and blanks up to the width of the column. -/
def field (w : ℕ) (text : Text) : Text := ' ' :: text ++ List.replicate (w + 1 - charLen text) ' '

def fields (ws : List ℕ) (row : Row) : Row :=
  (List.range ws.length).map fun c => field (ws.getD c 0) (cell row c)

theorem cell_fields {ws : List ℕ} {c : ℕ} (hc : c < ws.length) (row : Row) :
    cell (fields ws row) c = field (ws.getD c 0) (cell row c) := by
  rw [cell, fields, List.getD_eq_getElem?_getD, List.getElem?_map, List.getElem?_range hc]
  rfl

theorem utf8Length_field {w : ℕ} {text : Text} (htext : utf8Length text = .ok (charLen text))
    (hw : charLen text ≤ w) : utf8Length (field w text) = .ok (w + 2) := by
  have hblank : byteSize ' ' = 1 := by decide
  have hlen : charLen text + 1 + (w + 1 - charLen text) = w + 2 := by omega
  rw [← hlen]
  exact utf8Length_append (utf8Length_cons hblank htext) (utf8Length_replicate hblank _)

theorem length_widths (data : List (Option Row)) : (widths data).length = columnNum data := by
  rw [widths, List.length_map, List.length_range]

theorem getD_widths {c : ℕ} (hc : c < columnNum data) : (widths data).getD c 0 = width data c := by
  rw [widths, List.getD_eq_getElem?_getD, List.getElem?_map, List.getElem?_range hc]
  rfl

theorem formatRow_padRow (hdata : Accepted data) (hrow : row ∈ data.reduceOption) :
    formatRow (widths data) (padRow (columnNum data) row) = .ok (fields (widths data) row) := by
  refine mapM_eq_ok _ fun c hc => ?_
  rw [List.mem_range, length_widths] at hc
  rw [cell_padRow hc, getD_widths hc]
  exact padCell_eq (utf8Length_cell hdata hrow c) (charLen_le_width hrow c)

/-- **The rows as they are printed.** -/
theorem format_eq (hdata : Accepted data) :
    format data = .ok (widths data, data.map (Option.map (fields (widths data)))) := by
  have hwidths : (List.range (columnNum data)).mapM (maxLen (padRows data)) = .ok (widths data) :=
    mapM_eq_ok _ fun c hc => maxLen_padRows hdata (List.mem_range.1 hc)
  have hrows : data.mapM ((fun row => row.mapM (formatRow (widths data))) ∘
      Option.map (padRow (columnNum data))) =
      .ok (data.map (Option.map (fields (widths data)))) := by
    refine mapM_eq_ok _ fun row hrow => ?_
    cases row with
    | none => rfl
    | some row =>
      have hformat := formatRow_padRow hdata (List.reduceOption_mem_iff.2 hrow)
      simp only [Function.comp_apply, Option.map_some, Option.mapM_some, hformat]
      rfl
  simp only [format, hwidths, bind, Except.bind]
  rw [padRows, List.mapM_map, hrows]
  rfl

/-! ## Lines -/

theorem cons_intercalate (b : Char) {texts : List Text} (h : texts ≠ []) :
    b :: [b].intercalate texts = texts.flatMap (b :: ·) := by
  induction texts with
  | nil => exact absurd rfl h
  | cons t texts ih =>
    cases texts with
    | nil => simp
    | cons t' texts =>
      rw [List.intercalate_cons_cons, List.append_assoc, List.singleton_append, ih (by simp)]
      rfl

/-- A line is as long as what is between its bars, and the bars. -/
theorem utf8Length_barred {b : Char} (hb : byteSize b = 1) {ι : Type} {g : ι → Text} {len : ι → ℕ}
    {cs : List ι} (hne : cs ≠ []) (h : ∀ c ∈ cs, utf8Length (g c) = .ok (len c)) :
    utf8Length (b :: [b].intercalate (cs.map g) ++ [b]) =
      .ok ((cs.map len).sum + cs.length + 1) := by
  have hcells : utf8Length ((cs.map g).flatMap (b :: ·)) = .ok ((cs.map len).sum + cs.length) := by
    clear hne
    induction cs with
    | nil => rfl
    | cons c cs ih =>
      have hfirst := utf8Length_cons hb (h c (by simp))
      have hrest := ih fun d hd => h d (by simp [hd])
      have hsum : ((c :: cs).map len).sum + (c :: cs).length =
          len c + 1 + ((cs.map len).sum + cs.length) := by
        rw [List.map_cons, List.sum_cons, List.length_cons]
        omega
      rw [hsum]
      exact utf8Length_append hfirst hrest
  rw [cons_intercalate b (by simpa using hne)]
  exact utf8Length_append hcells (utf8Length_replicate hb 1)

theorem mem_barred {b c : Char} {texts : List Text}
    (h : c ∈ b :: [b].intercalate texts ++ [b]) : c = b ∨ ∃ text ∈ texts, c ∈ text := by
  rcases List.eq_nil_or_concat texts with rfl | hne
  · simpa using h
  · rw [cons_intercalate b (by obtain ⟨l, x, rfl⟩ := hne; simp)] at h
    simp only [List.mem_append, List.mem_flatMap, List.mem_cons, List.not_mem_nil, or_false] at h
    rcases h with ⟨text, htext, rfl | h⟩ | h
    · exact .inl rfl
    · exact .inr ⟨text, htext, h⟩
    · exact .inl h

/-- **A printed table**: its lines are rules and the rows with bars between
their cells, and every row is there; all lines have one length, and a cell
takes two characters more than the longest of its column, a blank and its
text first. -/
structure Aligned (data : List (Option Row)) (ws : List ℕ) (out : List Text) : Prop where
  columns : ws.length = columnNum data
  longest : ∀ c < ws.length,
    IsGreatest {n | ∃ row ∈ data.reduceOption, utf8Length (cell row c) = .ok n} (ws.getD c 0)
  made : ∀ line ∈ out,
    (∃ c ∈ ['=', '-'],
      line = '+' :: ['+'].intercalate (ws.map fun w => List.replicate (w + 2) c) ++ ['+']) ∨
    ∃ row ∈ data.reduceOption, line = '|' :: ['|'].intercalate (fields ws row) ++ ['|']
  shown : ∀ row ∈ data.reduceOption, '|' :: ['|'].intercalate (fields ws row) ++ ['|'] ∈ out
  lines : ∀ line ∈ out, utf8Length line = .ok ((ws.map (· + 2)).sum + ws.length + 1) ∧ '\n' ∉ line
  cells : ∀ row ∈ data.reduceOption, ∀ c < ws.length,
    (∃ blanks, cell (fields ws row) c = ' ' :: cell row c ++ List.replicate blanks ' ') ∧
      utf8Length (cell (fields ws row) c) = .ok (ws.getD c 0 + 2)

theorem utf8Length_hrule {c : Char} (hc : byteSize c = 1) {ws : List ℕ} (hws : ws ≠ []) :
    utf8Length (hrule c ws) = .ok ((ws.map (· + 2)).sum + ws.length + 1) :=
  utf8Length_barred (by decide) hws fun m _ => utf8Length_replicate hc (m + 2)

theorem newline_notMem_hrule {c : Char} (hc : c ≠ '\n') (ws : List ℕ) : '\n' ∉ hrule c ws := by
  intro h
  rcases mem_barred h with h | ⟨text, htext, h⟩
  · exact absurd h (by decide)
  · obtain ⟨m, -, rfl⟩ := List.mem_map.1 htext
    exact hc (List.eq_of_mem_replicate h).symm

theorem utf8Length_cell_fields (hdata : Accepted data) (hrow : row ∈ data.reduceOption) {c : ℕ}
    (hc : c < columnNum data) :
    utf8Length (field ((widths data).getD c 0) (cell row c)) = .ok (width data c + 2) := by
  rw [getD_widths hc]
  exact utf8Length_field (utf8Length_cell hdata hrow c) (charLen_le_width hrow c)

theorem utf8Length_printData (hdata : Accepted data) (hrow : row ∈ data.reduceOption)
    (hcols : 0 < columnNum data) : utf8Length (printData (fields (widths data) row)) =
      .ok (((widths data).map (· + 2)).sum + (widths data).length + 1) := by
  have hne : List.range (widths data).length ≠ [] := by
    rw [length_widths, ne_eq, List.range_eq_nil]
    omega
  have hline : utf8Length (printData (fields (widths data) row)) =
      .ok (((List.range (widths data).length).map fun c => width data c + 2).sum +
        (List.range (widths data).length).length + 1) := by
    refine utf8Length_barred (by decide) hne fun c hc => ?_
    rw [List.mem_range, length_widths] at hc
    exact utf8Length_cell_fields hdata hrow hc
  rw [hline, List.length_range]
  congr 4
  rw [length_widths, widths, List.map_map]
  rfl

theorem newline_notMem_printData {input : Text} (hrow : row ∈ (parse input).reduceOption)
    (ws : List ℕ) : '\n' ∉ printData (fields ws row) := by
  intro h
  rcases mem_barred h with h | ⟨text, htext, h⟩
  · exact absurd h (by decide)
  · obtain ⟨c, -, rfl⟩ := List.mem_map.1 htext
    rcases List.mem_append.1 h with h | h
    · rcases List.mem_cons.1 h with h | h
      · exact absurd h (by decide)
      · rcases cell_mem_or_eq_nil row c with hmem | hnil
        · exact newline_notMem_cell hrow hmem h
        · rw [hnil] at h
          cases h
    · exact absurd (List.eq_of_mem_replicate h) (by decide)

/-- The printed lines are rules, or rows of the input. -/
theorem mem_printTable {ws : List ℕ} {hdr : Row} {body : List (Option Row)} {line : Text}
    (h : line ∈ printTable ws (some hdr) body) : line = hrule '=' ws ∨ line = hrule '-' ws ∨
      ∃ row, (row = hdr ∨ some row ∈ body) ∧ line = printData row := by
  simp only [printTable, List.mem_append, List.mem_cons, List.not_mem_nil, or_false, List.mem_map,
    Option.getD_some] at h
  rcases h with ((rfl | rfl | rfl) | ⟨row, hrow, rfl⟩) | rfl
  · exact .inl rfl
  · exact .inr (.inr ⟨hdr, .inl rfl, rfl⟩)
  · exact .inl rfl
  · cases row with
    | none => exact .inr (.inl rfl)
    | some row => exact .inr (.inr ⟨row, .inr hrow, rfl⟩)
  · exact .inr (.inl rfl)

/-- The rows of the body are those with gaps. -/
theorem some_mem_separated {α : Type} {rest : List (ℕ × α)} {row : α} :
    some row ∈ separated rest ↔ row ∈ rest.map Prod.snd := by
  have hgap : ∀ e : ℕ × α, some row ∈ behindGap e ↔ e.2 = row := by
    intro e
    unfold behindGap
    split_ifs <;> simp [eq_comm]
  cases rest with
  | nil => simp [separated]
  | cons e rest =>
    simp only [separated, List.mem_cons, Option.some.injEq, List.mem_flatMap, hgap, List.map_cons,
      List.mem_map]

theorem aligned_printTable {input : Text} {gap : ℕ} {hdr : Row} {rest : List (ℕ × Row)}
    (hcols : 0 < columnNum (parse input)) (hcells : Accepted (parse input))
    (hgaps : rowsWithGaps 0 (parse input) = (gap, hdr) :: rest) :
    Aligned (parse input) (widths (parse input))
      (printTable (widths (parse input)) (some (fields (widths (parse input)) hdr))
        ((separated rest).map (Option.map (fields (widths (parse input)))))) := by
  have hrows : (parse input).reduceOption = hdr :: rest.map Prod.snd := by
    rw [← map_snd_rowsWithGaps 0, hgaps, List.map_cons]
  have hws : widths (parse input) ≠ [] := by
    rw [← List.length_pos_iff, length_widths]
    exact hcols
  -- a line is a rule, or the row that it shows
  have hmade : ∀ line ∈ printTable (widths (parse input)) (some (fields (widths (parse input)) hdr))
      ((separated rest).map (Option.map (fields (widths (parse input))))),
      (∃ c ∈ ['=', '-'], line = hrule c (widths (parse input))) ∨
      ∃ row ∈ (parse input).reduceOption, line = printData (fields (widths (parse input)) row) := by
    intro line hline
    rcases mem_printTable hline with rfl | rfl | ⟨printed, rfl | hprinted, rfl⟩
    · exact .inl ⟨'=', by simp, rfl⟩
    · exact .inl ⟨'-', by simp, rfl⟩
    · exact .inr ⟨hdr, by rw [hrows]; simp, rfl⟩
    · obtain ⟨x, hx, heq⟩ := List.mem_map.1 hprinted
      obtain ⟨row, rfl, rfl⟩ := Option.map_eq_some_iff.1 heq
      exact .inr ⟨row, by rw [hrows]; exact List.mem_cons_of_mem _ (some_mem_separated.1 hx), rfl⟩
  refine ⟨length_widths _, fun c hc => ?_, hmade, fun row hrow => ?_, fun line hline => ?_,
    fun row hrow c hc => ?_⟩
  · rw [length_widths] at hc
    rw [getD_widths hc]
    exact isGreatest_width hcells (by rw [hrows]; simp) c
  · rw [hrows] at hrow
    rcases List.mem_cons.1 hrow with rfl | hrow
    · exact List.mem_cons_of_mem _ List.mem_cons_self
    · refine List.mem_append_left _ (List.mem_append_right _ (List.mem_map.2 ⟨some _, ?_, rfl⟩))
      exact List.mem_map.2 ⟨some row, some_mem_separated.2 hrow, rfl⟩
  · rcases hmade line hline with ⟨c, hc, rfl⟩ | ⟨row, hrow, rfl⟩
    · have hthin : c = '=' ∨ c = '-' := by simpa using hc
      rcases hthin with rfl | rfl <;>
        exact ⟨utf8Length_hrule (by decide) hws, newline_notMem_hrule (by decide) _⟩
    · exact ⟨utf8Length_printData hcells hrow hcols, newline_notMem_printData hrow _⟩
  · rw [cell_fields hc]
    refine ⟨⟨_, rfl⟩, ?_⟩
    rw [length_widths] at hc
    rw [utf8Length_cell_fields hcells hrow hc, getD_widths hc]

/-- **For every input with a header, a row, a column and cells that are
accepted, the script prints an aligned table**: the header between thick
rules, and the rows behind it with thin rules for the separators. -/
theorem csvtable_aligned {input : Text} (hrows : 2 ≤ (filledLines input).length)
    (hcols : 0 < columnNum (parse input)) (hcells : Accepted (parse input)) :
    ∃ ws gap hdr rest out, Returns (fun fuel => csvtable fuel input) (.ok out) ∧
      rowsWithGaps 0 (parse input) = (gap, hdr) :: rest ∧
      out = printTable ws (some (fields ws hdr)) ((separated rest).map (Option.map (fields ws))) ∧
      Aligned (parse input) ws out := by
  have hnormal : Normalised ((parse input).map (Option.map (fields (widths (parse input))))) := by
    rw [normalised_iff_length, reduceOption_map_parse, List.length_map]
    exact hrows
  obtain ⟨gap', hdr', rest', hgaps', hreturns⟩ := hnormal
  rw [rowsWithGaps_map] at hgaps'
  obtain ⟨first, rest, hgaps, hfirst, hrest⟩ := List.map_eq_cons_iff.1 hgaps'
  obtain ⟨gap, hdr⟩ := first
  obtain ⟨rfl, rfl⟩ := Prod.mk.inj hfirst
  subst hrest
  have hcsvtable : (fun fuel => csvtable fuel input) = fun fuel =>
      (normalise fuel ((parse input).map (Option.map (fields (widths (parse input)))))).map
        fun r => .ok (printTable (widths (parse input)) r.1 r.2) := by
    funext fuel
    simp only [csvtable, format_eq hcells]
  refine ⟨widths (parse input), gap, hdr, rest, _, ?_, hgaps, rfl, ?_⟩
  · rw [hcsvtable, ← separated_map]
    exact hreturns.map
  · exact aligned_printTable hcols hcells hgaps

/-- A header, a blank line and a row with a character of two bytes. -/
theorem csvtable_aligned_twoColumns :
    ∃ ws gap hdr rest out,
      Returns (fun fuel => csvtable fuel ['a', ',', 'b', '\n', '\n', '\xc3', '\xa9', '\n'])
        (.ok out) ∧
      rowsWithGaps 0 (parse ['a', ',', 'b', '\n', '\n', '\xc3', '\xa9', '\n']) =
        (gap, hdr) :: rest ∧
      out = printTable ws (some (fields ws hdr)) ((separated rest).map (Option.map (fields ws))) ∧
      Aligned (parse ['a', ',', 'b', '\n', '\n', '\xc3', '\xa9', '\n']) ws out :=
  csvtable_aligned (by decide) (by decide) (by unfold Accepted; decide)

end Csvtable

end CppEtudes
