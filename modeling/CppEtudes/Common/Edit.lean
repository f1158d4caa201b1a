import CppEtudes.Common.Regex
import Mathlib.Data.List.DropRight

/-!
# Edits and their lines

An edit takes a text apart into the characters it keeps, those it drops
and those it puts in between. It keeps the lines if every character it
keeps has as many newlines before it as it had; newlines at the end of
the text do not count. Edits one after the other are one edit
(`comp`), and keep the lines if each does.
-/

namespace CppEtudes

/-- One character of an edit. -/
inductive Piece
  | keep (c : Char)
  | drop (c : Char)
  | add (c : Char)
  deriving DecidableEq

abbrev Edit := List Piece

namespace Edit

def sourceOf : Piece → List Char
  | .keep c => [c]
  | .drop c => [c]
  | .add _ => []

def targetOf : Piece → List Char
  | .keep c => [c]
  | .drop _ => []
  | .add c => [c]

/-- The text that is edited. -/
def source (e : Edit) : List Char := e.flatMap sourceOf

/-- The text it becomes. -/
def target (e : Edit) : List Char := e.flatMap targetOf

/-- The number of newlines. -/
def lines (t : List Char) : ℕ := t.count '\n'

/-- **The edit keeps the lines**: a character it keeps stands on the line
it stood on, newlines at the very end of the text apart. -/
def KeepsLines (e : Edit) : Prop :=
  ∀ a c b, e = a ++ .keep c :: b → (∃ x ∈ c :: source b, x ≠ '\n') →
    lines (source a) = lines (target a)

section Basic

variable {e e' : Edit} {p : Piece}

@[simp] theorem source_nil : source [] = [] := rfl

@[simp] theorem target_nil : target [] = [] := rfl

@[simp] theorem source_cons : source (p :: e) = sourceOf p ++ source e := List.flatMap_cons

@[simp] theorem target_cons : target (p :: e) = targetOf p ++ target e := List.flatMap_cons

@[simp] theorem source_append : source (e ++ e') = source e ++ source e' := List.flatMap_append

@[simp] theorem target_append : target (e ++ e') = target e ++ target e' := List.flatMap_append

@[simp] theorem lines_nil : lines [] = 0 := rfl

@[simp] theorem lines_append (t t' : List Char) : lines (t ++ t') = lines t + lines t' :=
  List.count_append

theorem lines_eq_zero {t : List Char} (h : '\n' ∉ t) : lines t = 0 := List.count_eq_zero_of_not_mem h

theorem source_map_drop (t : List Char) : source (t.map .drop) = t := by
  induction t with
  | nil => rfl
  | cons c t ih => rw [List.map_cons, source_cons, ih]; rfl

theorem target_map_drop (t : List Char) : target (t.map .drop) = [] := by
  induction t with
  | nil => rfl
  | cons c t ih => rw [List.map_cons, target_cons, ih]; rfl

theorem source_map_add (t : List Char) : source (t.map .add) = [] := by
  induction t with
  | nil => rfl
  | cons c t ih => rw [List.map_cons, source_cons, ih]; rfl

theorem target_map_add (t : List Char) : target (t.map .add) = t := by
  induction t with
  | nil => rfl
  | cons c t ih => rw [List.map_cons, target_cons, ih]; rfl

end Basic

/-! ## Edits that keep every line -/

/-- An edit that keeps the line of every character, and of what follows
it. -/
structure Steady (e : Edit) : Prop where
  inner : ∀ a c b, e = a ++ .keep c :: b → lines (source a) = lines (target a)
  outer : lines (source e) = lines (target e)

theorem Steady.keepsLines {e : Edit} (h : Steady e) : KeepsLines e := fun a c b he _ => h.inner a c b he

theorem steady_nil : Steady [] := ⟨fun a c b h => by simp at h, rfl⟩

theorem steady_keep (c : Char) : Steady [.keep c] := by
  refine ⟨fun a c b h => ?_, rfl⟩
  cases a with
  | nil => rfl
  | cons p a => simp at h

/-- Before a character that is kept in the edit, or right behind it. -/
theorem Steady.inner_left {a d t b : Edit} {c : Char} (h : Steady (a ++ d))
    (hd : Piece.keep c :: b = d ++ t) : lines (source a) = lines (target a) := by
  cases d with
  | nil => simpa using h.outer
  | cons p d =>
    rw [List.cons_append, List.cons.injEq] at hd
    exact h.inner a c d (by rw [hd.1])

theorem Steady.append {e e' : Edit} (h : Steady e) (h' : Steady e') : Steady (e ++ e') := by
  refine ⟨fun a c b heq => ?_, by simp [h.outer, h'.outer]⟩
  -- the kept character stands in the first edit or in the second
  rcases List.append_eq_append_iff.1 heq with ⟨d, rfl, hd⟩ | ⟨d, rfl, hd⟩
  · rw [source_append, target_append, lines_append, lines_append, h.outer, h'.inner d c b hd]
  · exact h.inner_left hd

theorem steady_flatMap {ι : Type} {f : ι → Edit} (xs : List ι) (h : ∀ x ∈ xs, Steady (f x)) :
    Steady (xs.flatMap f) := by
  induction xs with
  | nil => exact steady_nil
  | cons x xs ih =>
    rw [List.flatMap_cons]
    exact (h x (by simp)).append (ih fun y hy => h y (by simp [hy]))

/-- Without newlines there is nothing to keep. -/
theorem steady_of_not_mem {e : Edit} (hs : '\n' ∉ source e) (ht : '\n' ∉ target e) : Steady e := by
  refine ⟨fun a c b he => ?_, by rw [lines_eq_zero hs, lines_eq_zero ht]⟩
  subst he
  rw [lines_eq_zero fun h => hs (by simp [h]), lines_eq_zero fun h => ht (by simp [h])]

/-- A text put in for another one with as many newlines. -/
theorem steady_replace {t t' : List Char} (h : lines t = lines t') :
    Steady (t.map .drop ++ t'.map .add) := by
  refine ⟨fun a c b he => ?_, by simp [source_map_drop, target_map_drop, source_map_add,
    target_map_add, h]⟩
  have hmem : Piece.keep c ∈ t.map Piece.drop ++ t'.map Piece.add := by rw [he]; simp
  simp at hmem

/-- Newlines dropped at the end are none that count. -/
theorem Steady.keepsLines_append_drop {e : Edit} (h : Steady e) (t : List Char) :
    KeepsLines (e ++ t.map .drop) := by
  intro a c b heq _
  rcases List.append_eq_append_iff.1 heq with ⟨d, rfl, hd⟩ | ⟨d, rfl, hd⟩
  · have hmem : Piece.keep c ∈ t.map Piece.drop := by rw [hd]; simp
    simp at hmem
  · exact h.inner_left hd

/-! ## Edits that drop newlines -/

/-- No newline is dropped before a character that is kept and counts. -/
def LosesNoLine (e : Edit) : Prop :=
  ∀ a b, e = a ++ .drop '\n' :: b → ∀ b₁ c b₂, b = b₁ ++ .keep c :: b₂ → ∀ x ∈ c :: source b₂, x = '\n'

/-- **An edit that puts no newline in keeps the lines if and only if it
loses none.** -/
theorem keepsLines_iff_losesNoLine {e : Edit} (hadd : Piece.add '\n' ∉ e) :
    KeepsLines e ↔ LosesNoLine e := by
  -- what is dropped is the difference
  have hdiff : ∀ a : Edit, Piece.add '\n' ∉ a →
      lines (source a) = lines (target a) + a.count (.drop '\n') := by
    intro a ha
    induction a with
    | nil => rfl
    | cons p a ih =>
      have := ih fun h => ha (by simp [h])
      rw [source_cons, target_cons, lines_append, lines_append, List.count_cons, this]
      cases p with
      | keep c => simp [sourceOf, targetOf]; omega
      | drop c =>
        by_cases hc : c = '\n'
        · subst hc; simp [sourceOf, targetOf, lines]; omega
        · simp [sourceOf, targetOf, lines, hc]
      | add c =>
        have hc : c ≠ '\n' := fun h => ha (by simp [h])
        simp [sourceOf, targetOf, lines, hc]
  constructor
  · intro h a b he b₁ c b₂ hb
    subst hb
    by_contra hx
    push Not at hx
    have heq := h (a ++ .drop '\n' :: b₁) c b₂ (by rw [he]; simp) hx
    rw [hdiff _ fun hmem => hadd (by rw [he]; simp at hmem ⊢; tauto)] at heq
    simp at heq
  · intro h a c b he hx
    rw [hdiff a fun hmem => hadd (by rw [he]; simp [hmem]), Nat.add_eq_left, List.count_eq_zero]
    intro hmem
    obtain ⟨a₁, a₂, rfl⟩ := List.append_of_mem hmem
    obtain ⟨x, hxmem, hne⟩ := hx
    exact hne (h a₁ (a₂ ++ .keep c :: b) (by rw [he]; simp) a₂ c b rfl x hxmem)

/-! ## Matches replaced -/

section Gsub

open Regex

variable {r : Regex} {repl : Match → Edit} {t : List Char}

def ofPart (repl : Match → Edit) : Part → Edit
  | .other c => [.keep c]
  | .found m => repl m

/-- **Every match of the pattern is replaced**: `s/…/…/g`. -/
def gsub (r : Regex) (repl : Match → Edit) (t : List Char) : Edit := (r.scan t).flatMap (ofPart repl)

/-- A match becomes another text. -/
def replaceBy (new : List Char → List Char) (m : Match) : Edit :=
  m.text.map .drop ++ (new m.text).map .add

/-- The characters of a match that are so are kept. -/
def keepOnly (p : Char → Bool) (m : Match) : Edit :=
  m.text.map fun c => if p c then .keep c else .drop c

def keepMarked (x : Char × Bool) : Piece := if x.2 then .keep x.1 else .drop x.1

/-- A match becomes `$1`. -/
def keepGroup (m : Match) : Edit := m.map keepMarked

theorem source_replaceBy (new : List Char → List Char) (m : Match) :
    source (replaceBy new m) = m.text := by
  rw [replaceBy, source_append, source_map_drop, source_map_add, List.append_nil]

theorem source_keepOnly (p : Char → Bool) (m : Match) : source (keepOnly p m) = m.text := by
  unfold keepOnly
  induction m.text with
  | nil => rfl
  | cons c t ih =>
    rw [List.map_cons, source_cons, ih]
    split_ifs <;> rfl

theorem target_keepOnly (p : Char → Bool) (m : Match) : target (keepOnly p m) = m.text.filter p := by
  unfold keepOnly
  induction m.text with
  | nil => rfl
  | cons c t ih =>
    rw [List.map_cons, target_cons, ih, List.filter_cons]
    split_ifs <;> rfl

theorem source_keepGroup (m : Match) : source (keepGroup m) = m.text := by
  unfold keepGroup
  induction m with
  | nil => rfl
  | cons x m ih =>
    rw [List.map_cons, source_cons, ih, keepMarked]
    split_ifs <;> rfl

/-- What is edited is the text. -/
theorem source_gsub (h : ∀ m, source (repl m) = m.text) : source (gsub r repl t) = t := by
  have hpart : ∀ p : Part, source (ofPart repl p) = p.text := by
    rintro (c | m)
    · rfl
    · exact h m
  have hparts : ∀ ps : List Part, source (ps.flatMap (ofPart repl)) = ps.flatMap Part.text := by
    intro ps
    induction ps with
    | nil => rfl
    | cons p ps ih => rw [List.flatMap_cons, source_append, hpart, ih, List.flatMap_cons]
  rw [gsub, hparts, text_scan]

theorem steady_gsub (h : ∀ m, Part.found m ∈ r.scan t → Steady (repl m)) : Steady (gsub r repl t) := by
  refine steady_flatMap _ fun p hp => ?_
  cases p with
  | other c => exact steady_keep c
  | found m => exact h m hp

/-- Nothing comes in but by the replacements. -/
theorem not_mem_target_gsub {d : Char} (ht : d ∉ t)
    (h : ∀ m, Part.found m ∈ r.scan t → d ∉ target (repl m)) : d ∉ target (gsub r repl t) := by
  intro hd
  obtain ⟨p, hp, hd⟩ := List.mem_flatMap.1 hd
  obtain ⟨q, hq, hp⟩ := List.mem_flatMap.1 hp
  cases q with
  | other c =>
    rw [List.mem_singleton.1 hp, targetOf, List.mem_singleton] at hd
    refine ht ?_
    rw [← text_scan r t]
    exact List.mem_flatMap.2 ⟨_, hq, by rw [hd]; exact List.mem_singleton_self c⟩
  | found m => exact h m hq (List.mem_flatMap.2 ⟨p, hp, hd⟩)

/-- Newlines that stay where they are. -/
theorem steady_keepOnly {p : Char → Bool} (hp : p '\n' = true) (m : Match) : Steady (keepOnly p m) := by
  have hone : ∀ c, Steady [if p c then Piece.keep c else .drop c] := by
    intro c
    split_ifs with hc
    · exact steady_keep c
    · have hzero : lines [c] = lines [] := lines_eq_zero fun hmem => hc (List.mem_singleton.1 hmem ▸ hp)
      exact steady_replace hzero
  unfold keepOnly
  rw [← List.flatMap_singleton' (m.text.map _), List.flatMap_map]
  exact steady_flatMap _ fun c _ => hone c

end Gsub

/-! ### Newlines that matches take away -/

section Marks

open Regex

variable {r : Regex} {t : List Char}

def marksOf : Part → List (Char × Bool)
  | .other c => [(c, true)]
  | .found m => m

/-- The text, each character with whether it stands outside the matches or
in `$1`. -/
def marks (r : Regex) (t : List Char) : List (Char × Bool) := (r.scan t).flatMap marksOf

/-- **No newline that a match takes away stands before a character that
stays**, newlines at the end of the text apart. -/
def NoLineLost (r : Regex) (t : List Char) : Prop :=
  ∀ u v, marks r t = u ++ ('\n', false) :: v → ∀ v₁ c v₂, v = v₁ ++ (c, true) :: v₂ →
    ∀ x ∈ c :: v₂.map Prod.fst, x = '\n'

theorem gsub_keepGroup (r : Regex) (t : List Char) : gsub r keepGroup t = (marks r t).map keepMarked := by
  rw [gsub, marks, List.map_flatMap]
  congr 1
  funext p
  cases p <;> rfl

/-- Without `$1` a match goes altogether. -/
theorem gsub_replaceBy_nil (h : r.capFree = true) (t : List Char) :
    gsub r (replaceBy fun _ => []) t = (marks r t).map keepMarked := by
  rw [gsub, marks, List.map_flatMap]
  refine List.flatMap_congr fun p hp => ?_
  cases p with
  | other c => rfl
  | found m =>
    have hfalse := (snd_eq_false_of_capFree h).of_found_mem hp
    simp only [ofPart, marksOf, replaceBy, Match.text, List.map_nil, List.append_nil, List.map_map]
    refine List.map_congr_left fun x hx => ?_
    simp [keepMarked, hfalse x hx]

theorem source_map_keepMarked (ms : List (Char × Bool)) :
    source (ms.map keepMarked) = ms.map Prod.fst := source_keepGroup ms

theorem keepMarked_eq_keep {x : Char × Bool} {c : Char} : keepMarked x = .keep c ↔ x = (c, true) := by
  obtain ⟨d, b⟩ := x
  cases b <;> simp [keepMarked]

theorem keepMarked_eq_drop {x : Char × Bool} {c : Char} : keepMarked x = .drop c ↔ x = (c, false) := by
  obtain ⟨d, b⟩ := x
  cases b <;> simp [keepMarked]

/-- **Taking the matches away keeps the lines if and only if no newline is
lost with them.** -/
theorem keepsLines_map_keepMarked_iff : KeepsLines ((marks r t).map keepMarked) ↔ NoLineLost r t := by
  have hadd : Piece.add '\n' ∉ (marks r t).map keepMarked := by
    intro hmem
    obtain ⟨⟨c, b⟩, -, hx⟩ := List.mem_map.1 hmem
    cases b <;> simp [keepMarked] at hx
  rw [keepsLines_iff_losesNoLine hadd]
  constructor
  · intro h u v huv v₁ c v₂ hv
    have hmap : (marks r t).map keepMarked = u.map keepMarked ++ .drop '\n' :: v.map keepMarked := by
      rw [huv, List.map_append, List.map_cons, keepMarked_eq_drop.2 rfl]
    have hx := h _ _ hmap (v₁.map keepMarked) c (v₂.map keepMarked) (by
      rw [hv, List.map_append, List.map_cons, keepMarked_eq_keep.2 rfl])
    rwa [source_map_keepMarked] at hx
  · intro h a b hab b₁ c b₂ hb
    obtain ⟨u, w, huw, rfl, hw⟩ := List.map_eq_append_iff.1 hab
    obtain ⟨x, v, rfl, hx, rfl⟩ := List.map_eq_cons_iff.1 hw
    obtain rfl := keepMarked_eq_drop.1 hx
    obtain ⟨v₁, w', hv, rfl, hw'⟩ := List.map_eq_append_iff.1 hb
    obtain ⟨y, v₂, rfl, hy, rfl⟩ := List.map_eq_cons_iff.1 hw'
    obtain rfl := keepMarked_eq_keep.1 hy
    rw [source_map_keepMarked]
    exact h u v huw v₁ c v₂ hv

end Marks

/-! ## Line by line -/

/-- The lines of a text, without empty ones at its end: `split "\n"`. -/
def splitLines (t : List Char) : List (List Char) := (t.splitOn '\n').rdropWhile List.isEmpty

def joinLines : List Edit → Edit
  | [] => []
  | [e] => e
  | e :: es => e ++ .keep '\n' :: joinLines es

theorem joinLines_cons_cons (e e' : Edit) (es : List Edit) :
    joinLines (e :: e' :: es) = e ++ .keep '\n' :: joinLines (e' :: es) := rfl

/-- **Every line is edited**: `join "\n", map …, split "\n"`. The newlines
behind the last line that is not empty go. -/
def byLine (f : List Char → Edit) (t : List Char) : Edit :=
  joinLines ((splitLines t).map f) ++
    (List.replicate (lines t - ((splitLines t).length - 1)) '\n').map .drop

theorem length_splitOn (t : List Char) : (t.splitOn '\n').length = lines t + 1 := by
  induction t with
  | nil => rfl
  | cons c t ih =>
    rw [List.splitOn] at ih ⊢
    rw [List.splitOnP_cons_eq_if_modifyHead, lines, List.count_cons]
    split_ifs with h
    · rw [List.length_cons, ih, lines]
    · rw [List.length_modifyHead, ih, lines]

theorem not_mem_of_mem_splitOn {t : List Char} : ∀ l ∈ t.splitOn '\n', '\n' ∉ l := by
  induction t with
  | nil => intro l hl; rw [List.mem_singleton.1 hl]; simp
  | cons c t ih =>
    rw [List.splitOn] at ih ⊢
    rw [List.splitOnP_cons_eq_if_modifyHead]
    split_ifs with h
    · intro l hl
      rcases List.mem_cons.1 hl with rfl | hl
      · simp
      · exact ih l hl
    · cases hsplit : List.splitOnP (· == '\n') t with
      | nil => exact absurd hsplit (List.splitOnP_ne_nil _ _)
      | cons l' ls =>
        rw [hsplit] at ih
        intro l hl
        rcases List.mem_cons.1 hl with rfl | hl
        · have hc : c ≠ '\n' := by simpa using h
          simpa [Ne.symm hc] using ih l' (by simp)
        · exact ih l (by simp [hl])

theorem intercalate_cons_cons (l l' : List Char) (ls : List (List Char)) :
    ['\n'].intercalate (l :: l' :: ls) = l ++ '\n' :: ['\n'].intercalate (l' :: ls) := by
  rw [List.intercalate_cons_cons, List.append_assoc, List.singleton_append]

/-- Empty lines at the end are newlines. -/
theorem intercalate_append_replicate (ls : List (List Char)) (j : ℕ) :
    ['\n'].intercalate (ls ++ List.replicate j []) =
      ['\n'].intercalate ls ++ List.replicate (ls.length + j - 1 - (ls.length - 1)) '\n' := by
  have hempty : ∀ j : ℕ, ∀ l : List Char,
      ['\n'].intercalate (l :: List.replicate j []) = l ++ List.replicate j '\n' := by
    intro j
    induction j with
    | zero => intro l; simp [List.intercalate]
    | succ j ih => intro l; rw [List.replicate_succ, intercalate_cons_cons, ih, List.replicate_succ]; rfl
  induction ls with
  | nil =>
    cases j with
    | zero => rfl
    | succ j => simpa [List.replicate_succ, List.intercalate, List.intersperse] using hempty j []
  | cons l ls ih =>
    cases ls with
    | nil => simpa [List.intercalate, List.intersperse] using hempty j l
    | cons l' ls =>
      rw [List.cons_append, List.cons_append, intercalate_cons_cons, ← List.cons_append, ih,
        intercalate_cons_cons]
      simp only [List.length_cons, List.append_assoc, List.cons_append]
      congr 4
      omega

/-- **A text is its lines, and newlines.** -/
theorem intercalate_splitLines (t : List Char) : ['\n'].intercalate (splitLines t) ++
    List.replicate (lines t - ((splitLines t).length - 1)) '\n' = t := by
  have hsplit : splitLines t ++ (t.splitOn '\n').rtakeWhile List.isEmpty = t.splitOn '\n' :=
    List.rdropWhile_append_rtakeWhile
  have hempty : (t.splitOn '\n').rtakeWhile List.isEmpty =
      List.replicate ((t.splitOn '\n').rtakeWhile List.isEmpty).length [] :=
    List.eq_replicate_iff.2 ⟨rfl, fun l hl => List.isEmpty_iff.1 (List.mem_rtakeWhile_imp hl)⟩
  rw [hempty] at hsplit
  have hlen := congrArg List.length hsplit
  rw [length_splitOn, List.length_append, List.length_replicate] at hlen
  have htext := congrArg (['\n'].intercalate ·) hsplit
  simp only [intercalate_append_replicate, List.intercalate_splitOn] at htext
  rw [hlen, Nat.add_sub_cancel] at htext
  exact htext

theorem not_mem_of_mem_splitLines {t l : List Char} (hl : l ∈ splitLines t) : '\n' ∉ l :=
  not_mem_of_mem_splitOn l ((List.rdropWhile_prefix _ _).subset hl)

theorem source_joinLines (es : List Edit) :
    source (joinLines es) = ['\n'].intercalate (es.map source) := by
  induction es with
  | nil => rfl
  | cons e es ih =>
    cases es with
    | nil => simp [joinLines, List.intercalate]
    | cons e' es =>
      rw [joinLines_cons_cons, source_append, source_cons, ih]
      simp only [List.map_cons, intercalate_cons_cons]
      rfl

theorem steady_joinLines (es : List Edit) (h : ∀ e ∈ es, Steady e) : Steady (joinLines es) := by
  induction es with
  | nil => exact steady_nil
  | cons e es ih =>
    cases es with
    | nil => exact h e (by simp)
    | cons e' es =>
      rw [joinLines_cons_cons]
      have hrest := ih fun d hd => h d (by simp [hd])
      exact (h e (by simp)).append ((steady_keep '\n').append hrest)

section ByLine

variable {f : List Char → Edit}

theorem source_byLine (hf : ∀ l, source (f l) = l) (t : List Char) : source (byLine f t) = t := by
  have hmap : (splitLines t).map (source ∘ f) = splitLines t := by
    have hid : source ∘ f = id := funext hf
    rw [hid, List.map_id]
  rw [byLine, source_append, source_joinLines, List.map_map, source_map_drop, hmap,
    intercalate_splitLines]

/-- **Line by line the lines are kept**, by whatever puts no newline into
a line. -/
theorem keepsLines_byLine (hf : ∀ l, source (f l) = l) (ht : ∀ l, '\n' ∉ l → '\n' ∉ target (f l))
    (t : List Char) : KeepsLines (byLine f t) := by
  refine Steady.keepsLines_append_drop (steady_joinLines _ fun e he => ?_) _
  obtain ⟨l, hl, rfl⟩ := List.mem_map.1 he
  have hline := not_mem_of_mem_splitLines hl
  exact steady_of_not_mem (by rwa [hf]) (ht l hline)

end ByLine

/-! ## One edit after another -/

/-- What becomes of a character that the second edit drops. -/
def dropped : Piece → Edit
  | .keep c => [.drop c]
  | .drop c => [.drop c]
  | .add _ => []

/-- The pieces an edit puts in before it goes on. -/
def isAdd : Piece → Bool
  | .add _ => true
  | _ => false

/-- **Two edits as one**, the second one being of the text the first one
leaves. -/
def comp : Edit → Edit → Edit
  | [], e' => e'.filter isAdd
  | .drop c :: e, e' => .drop c :: comp e e'
  | p :: e, e' =>
    e'.takeWhile isAdd ++
      match e'.dropWhile isAdd with
      | .keep _ :: rest => p :: comp e rest
      | .drop _ :: rest => dropped p ++ comp e rest
      | _ => []

/-- One rewriting after another, each of the text the one before it
leaves. -/
def runSteps : List (List Char → Edit) → List Char → Edit
  | [], t => t.map .keep
  | f :: fs, t => comp (f t) (runSteps fs (target (f t)))

/-- With `i` newlines before the edit in its source and `j` in its target,
a kept character other than a newline has as many before it in both. -/
def KeptFrom : ℕ → ℕ → Edit → Prop
  | _, _, [] => True
  | i, j, .keep c :: e => (c ≠ '\n' → i = j) ∧ KeptFrom (i + lines [c]) (j + lines [c]) e
  | i, j, .drop c :: e => KeptFrom (i + lines [c]) j e
  | i, j, .add c :: e => KeptFrom i (j + lines [c]) e

/-- **Every character that is kept stays on its line**, newlines apart. -/
def KeepsCharLines (e : Edit) : Prop :=
  ∀ a c b, e = a ++ .keep c :: b → c ≠ '\n' → lines (source a) = lines (target a)

theorem KeepsLines.keepsCharLines {e : Edit} (h : KeepsLines e) : KeepsCharLines e :=
  fun a c b he hc => h a c b he ⟨c, by simp, hc⟩

theorem keptFrom_iff {e : Edit} : ∀ {i j : ℕ}, KeptFrom i j e ↔
    ∀ a c b, e = a ++ .keep c :: b → c ≠ '\n' → i + lines (source a) = j + lines (target a) := by
  induction e with
  | nil => intro i j; simp [KeptFrom]
  | cons p e ih =>
    intro i j
    -- the piece in front, and then what follows
    have hcons : (∀ a c b, p :: e = a ++ .keep c :: b → c ≠ '\n' →
        i + lines (source a) = j + lines (target a)) ↔
        (∀ c, p = .keep c → c ≠ '\n' → i = j) ∧ ∀ a c b, e = a ++ .keep c :: b → c ≠ '\n' →
          i + lines (sourceOf p) + lines (source a) = j + lines (targetOf p) + lines (target a) := by
      constructor
      · intro h
        refine ⟨fun c hp hc => by simpa using h [] c e (by rw [hp]; rfl) hc, fun a c b he hc => ?_⟩
        have := h (p :: a) c b (by rw [he]; rfl) hc
        simp only [source_cons, target_cons, lines_append] at this
        omega
      · rintro ⟨hhead, htail⟩ a c b he hc
        cases a with
        | nil =>
          simp only [List.nil_append, List.cons.injEq] at he
          simpa using hhead c he.1 hc
        | cons q a =>
          simp only [List.cons_append, List.cons.injEq] at he
          have := htail a c b he.2 hc
          rw [source_cons, target_cons, lines_append, lines_append, ← he.1]
          omega
    rw [hcons]
    cases p with
    | keep c => simp [KeptFrom, ih, sourceOf, targetOf]
    | drop c => simp [KeptFrom, ih, sourceOf, targetOf]
    | add c => simp [KeptFrom, ih, sourceOf, targetOf]

theorem keepsCharLines_iff {e : Edit} : KeepsCharLines e ↔ KeptFrom 0 0 e := by
  rw [keptFrom_iff]
  simp [KeepsCharLines]

section Comp

/-- An edit of a text that is not empty puts something in, perhaps, and
then keeps or drops the first character. -/
theorem exists_of_source_eq_cons {c : Char} {t : List Char} (e : Edit) (h : source e = c :: t) :
    ∃ rest, (e.dropWhile isAdd = .keep c :: rest ∨ e.dropWhile isAdd = .drop c :: rest) ∧
      source rest = t := by
  induction e with
  | nil => cases h
  | cons p e ih =>
    cases p with
    | keep d =>
      obtain ⟨rfl, rfl⟩ := List.cons.inj h
      exact ⟨e, .inl rfl, rfl⟩
    | drop d =>
      obtain ⟨rfl, rfl⟩ := List.cons.inj h
      exact ⟨e, .inr rfl, rfl⟩
    | add d => exact ih h

theorem keptFrom_adds {ad : Edit} (had : ∀ p ∈ ad, isAdd p = true) (e : Edit) :
    ∀ {i j : ℕ}, KeptFrom i j (ad ++ e) ↔ KeptFrom i (j + lines (target ad)) e := by
  induction ad with
  | nil => intro i j; simp
  | cons p ad ih =>
    intro i j
    cases p with
    | add c =>
      rw [List.cons_append, KeptFrom, ih fun q hq => had q (by simp [hq]), target_cons, lines_append,
        ← Nat.add_assoc]
      rfl
    | keep c => simpa [isAdd] using had (.keep c) (by simp)
    | drop c => simpa [isAdd] using had (.drop c) (by simp)

theorem source_adds {ad : Edit} (had : ∀ p ∈ ad, isAdd p = true) : source ad = [] := by
  refine List.flatMap_eq_nil_iff.2 fun p hp => ?_
  have := had p hp
  cases p with
  | add c => rfl
  | keep c => cases this
  | drop c => cases this

theorem filter_isAdd_of_source_eq_nil {e : Edit} (h : source e = []) : e.filter isAdd = e := by
  refine List.filter_eq_self.2 fun p hp => ?_
  have := List.flatMap_eq_nil_iff.1 h p hp
  cases p with
  | add c => rfl
  | keep c => cases this
  | drop c => cases this

/-- The three cases in which two edits go on together. -/
theorem comp_cases {p : Piece} {c : Char} (hp : targetOf p = [c]) {e e' : Edit}
    (h : source e' = target (p :: e)) : ∃ ad rest, (∀ q ∈ ad, isAdd q = true) ∧
      source rest = target e ∧
      (e' = ad ++ .keep c :: rest ∧ comp (p :: e) e' = ad ++ p :: comp e rest ∨
        e' = ad ++ .drop c :: rest ∧ comp (p :: e) e' = ad ++ (dropped p ++ comp e rest)) := by
  rw [target_cons, hp] at h
  obtain ⟨rest, hrest, hsource⟩ := exists_of_source_eq_cons e' h
  have hsplit : e'.takeWhile isAdd ++ e'.dropWhile isAdd = e' := List.takeWhile_append_dropWhile
  have hcomp : comp (p :: e) e' = e'.takeWhile isAdd ++
      match e'.dropWhile isAdd with
      | .keep _ :: rest => p :: comp e rest
      | .drop _ :: rest => dropped p ++ comp e rest
      | _ => [] := by
    cases p with
    | keep d => rfl
    | add d => rfl
    | drop d => cases hp
  refine ⟨e'.takeWhile isAdd, rest, fun q hq => List.mem_takeWhile_imp hq, hsource, ?_⟩
  rcases hrest with hrest | hrest
  · exact .inl ⟨by rw [← hrest, hsplit], by rw [hcomp, hrest]⟩
  · exact .inr ⟨by rw [← hrest, hsplit], by rw [hcomp, hrest]⟩

variable {e e' : Edit}

theorem source_comp (e : Edit) : ∀ {e' : Edit}, source e' = target e → source (comp e e') = source e := by
  induction e with
  | nil =>
    intro e' h
    rw [comp, filter_isAdd_of_source_eq_nil h, h]
    rfl
  | cons p e ih =>
    intro e' h
    cases p with
    | drop c => rw [comp, source_cons, ih h, source_cons]
    | keep c =>
      obtain ⟨ad, rest, had, hsource, ⟨-, hcomp⟩ | ⟨-, hcomp⟩⟩ := comp_cases (c := c) rfl h
      · rw [hcomp, source_append, source_adds had, source_cons, ih hsource, source_cons]; rfl
      · rw [hcomp, source_append, source_adds had, source_append, ih hsource, source_cons]; rfl
    | add c =>
      obtain ⟨ad, rest, had, hsource, ⟨-, hcomp⟩ | ⟨-, hcomp⟩⟩ := comp_cases (c := c) rfl h
      · rw [hcomp, source_append, source_adds had, source_cons, ih hsource, source_cons]; rfl
      · rw [hcomp, source_append, source_adds had, source_append, ih hsource, source_cons]; rfl

theorem target_comp (e : Edit) : ∀ {e' : Edit}, source e' = target e → target (comp e e') = target e' := by
  induction e with
  | nil =>
    intro e' h
    rw [comp, filter_isAdd_of_source_eq_nil h]
  | cons p e ih =>
    intro e' h
    cases p with
    | drop c => exact ih h
    | keep c =>
      obtain ⟨ad, rest, -, hsource, ⟨he', hcomp⟩ | ⟨he', hcomp⟩⟩ := comp_cases (c := c) rfl h
      · rw [hcomp, he', target_append, target_append, target_cons, ih hsource, target_cons]
      · rw [hcomp, he', target_append, target_append, target_append, ih hsource, target_cons]; rfl
    | add c =>
      obtain ⟨ad, rest, -, hsource, ⟨he', hcomp⟩ | ⟨he', hcomp⟩⟩ := comp_cases (c := c) rfl h
      · rw [hcomp, he', target_append, target_append, target_cons, ih hsource, target_cons]; rfl
      · rw [hcomp, he', target_append, target_append, target_append, ih hsource, target_cons]; rfl

theorem keptFrom_comp (e : Edit) : ∀ {e' : Edit} {i j k : ℕ}, source e' = target e →
    KeptFrom i j e → KeptFrom j k e' → KeptFrom i k (comp e e') := by
  induction e with
  | nil =>
    intro e' i j k h _ _
    rw [comp, ← List.append_nil (e'.filter isAdd),
      keptFrom_adds fun p hp => (List.mem_filter.1 hp).2]
    trivial
  | cons p e ih =>
    intro e' i j k h he he'
    cases p with
    | drop c => exact ih h he he'
    | keep c =>
      obtain ⟨ad, rest, had, hsource, ⟨rfl, hcomp⟩ | ⟨rfl, hcomp⟩⟩ := comp_cases (c := c) rfl h
      · rw [keptFrom_adds had] at he'
        rw [hcomp, keptFrom_adds had]
        exact ⟨fun hc => (he.1 hc).trans (he'.1 hc), ih hsource he.2 he'.2⟩
      · rw [keptFrom_adds had] at he'
        rw [hcomp, keptFrom_adds had]
        exact ih hsource he.2 he'
    | add c =>
      obtain ⟨ad, rest, had, hsource, ⟨rfl, hcomp⟩ | ⟨rfl, hcomp⟩⟩ := comp_cases (c := c) rfl h
      · rw [keptFrom_adds had] at he'
        rw [hcomp, keptFrom_adds had]
        exact ih hsource he he'.2
      · rw [keptFrom_adds had] at he'
        rw [hcomp, keptFrom_adds had]
        exact ih hsource he he'

/-- **Edits that keep the lines keep them one after the other.** -/
theorem KeepsCharLines.comp (hsource : source e' = target e) (h : KeepsCharLines e)
    (h' : KeepsCharLines e') : KeepsCharLines (comp e e') := by
  rw [keepsCharLines_iff] at h h' ⊢
  exact keptFrom_comp e hsource h h'

theorem source_map_keep (t : List Char) : source (t.map .keep) = t := by
  induction t with
  | nil => rfl
  | cons c t ih => rw [List.map_cons, source_cons, ih]; rfl

theorem keptFrom_map_keep (t : List Char) : ∀ {i : ℕ}, KeptFrom i i (t.map .keep) := by
  induction t with
  | nil => intro i; trivial
  | cons c t ih => intro i; exact ⟨fun _ => rfl, ih⟩

/-- The edits that a run of rewritings makes, one after the other. -/
def stages : List (List Char → Edit) → List Char → List Edit
  | [], _ => []
  | f :: fs, t => f t :: stages fs (target (f t))

theorem source_runSteps {fs : List (List Char → Edit)} (hfs : ∀ f ∈ fs, ∀ t, source (f t) = t) :
    ∀ t, source (runSteps fs t) = t := by
  induction fs with
  | nil => exact source_map_keep
  | cons f fs ih =>
    intro t
    rw [runSteps, source_comp _ (ih (fun g hg => hfs g (by simp [hg])) _), hfs f (by simp)]

/-- **A run of rewritings keeps the lines** if each of its edits does. -/
theorem keepsCharLines_runSteps {fs : List (List Char → Edit)}
    (hfs : ∀ f ∈ fs, ∀ t, source (f t) = t) :
    ∀ {t : List Char}, (∀ e ∈ stages fs t, KeepsCharLines e) → KeepsCharLines (runSteps fs t) := by
  induction fs with
  | nil => intro t _; exact keepsCharLines_iff.2 (keptFrom_map_keep t)
  | cons f fs ih =>
    intro t h
    have hrest := fun g hg => hfs g (List.mem_cons_of_mem f hg)
    exact KeepsCharLines.comp (source_runSteps hrest _) (h _ (by simp [stages]))
      (ih hrest fun e he => h e (by simp [stages, he]))

end Comp

end Edit

end CppEtudes
