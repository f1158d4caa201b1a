import Mathlib.Data.List.Basic
import Mathlib.Data.List.Infix
import Mathlib.Logic.Function.Iterate
import Mathlib.Tactic.Common

/-!
# Patterns

Regular expressions as backtracking engines read them: alternatives are
tried in their order, a repetition tries more rounds first or fewer, and
of the matches at the leftmost place that has one the first is taken. A
match is the text it takes, each character marked by whether the group
`$1` took it.
-/

namespace CppEtudes

/-- A pattern. `recur r` is a group that `call` stands for inside of it. -/
inductive Regex
  | eps
  | set (p : Char → Bool)
  | seq (r s : Regex)
  | alt (r s : Regex)
  | star (greedy : Bool) (r : Regex)
  | cap (r : Regex)
  | assert (p : Option Char → List Char → Bool)
  | ahead (r : Regex)
  | recur (r : Regex)
  | call

namespace Regex

/-! ## Abbreviations -/

def cat : List Regex → Regex
  | [] => .eps
  | [r] => r
  | r :: rs => .seq r (cat rs)

def oneOf : List Regex → Regex
  | [] => .set fun _ => false
  | [r] => r
  | r :: rs => .alt r (oneOf rs)

def chr (c : Char) : Regex := .set (· == c)

def lit (s : String) : Regex := cat (s.toList.map chr)

def many (r : Regex) : Regex := .star true r

def manyLazy (r : Regex) : Regex := .star false r

def plus (r : Regex) : Regex := .seq r r.many

def opt (r : Regex) : Regex := .alt r .eps

def optLazy (r : Regex) : Regex := .alt .eps r

/-! ## Matching -/

/-- A text, each character with whether `$1` took it. -/
abbrev Match := List (Char × Bool)

/-- The text of a match. -/
def Match.text (m : Match) : List Char := m.map Prod.fst

/-- The character before the place behind a match. -/
def Match.last (prev : Option Char) (m : Match) : Option Char := (m.getLast?.map Prod.fst).or prev

/-- A matcher lists the matches at a place, given the character before it
and the text from it on, those it prefers first. -/
abbrev Matcher := Option Char → List Char → List Match

/-- One matcher after another. -/
def Matcher.andThen (f g : Matcher) : Matcher := fun prev rest =>
  (f prev rest).flatMap fun m => (g (m.last prev) (rest.drop m.length)).map (m ++ ·)

/-- Rounds of a matcher, at most `n`; a round that takes nothing is the
last. -/
def Matcher.rounds (greedy : Bool) (f : Matcher) : ℕ → Matcher
  | 0, _, _ => [[]]
  | n + 1, prev, rest =>
    let more := (f prev rest).flatMap fun m =>
      if m.isEmpty then [[]]
      else (rounds greedy f n (m.last prev) (rest.drop m.length)).map (m ++ ·)
    if greedy then more ++ [[]] else [] :: more

/-- **The matches of a pattern**: `group` is what `call` stands for, and
`inCap` whether `$1` is open. A group that calls itself is followed as
deep as there are characters left, and one level more. -/
def run : Regex → (group : Bool → Matcher) → (inCap : Bool) → Matcher
  | eps, _, _, _, _ => [[]]
  | set p, _, inCap, _, rest =>
    match rest with
    | c :: _ => if p c then [[(c, inCap)]] else []
    | [] => []
  | seq r s, group, inCap, prev, rest =>
    Matcher.andThen (run r group inCap) (run s group inCap) prev rest
  | alt r s, group, inCap, prev, rest => run r group inCap prev rest ++ run s group inCap prev rest
  | star greedy r, group, inCap, prev, rest =>
    Matcher.rounds greedy (run r group inCap) rest.length prev rest
  | cap r, group, _, prev, rest => run r group true prev rest
  | assert p, _, _, prev, rest => if p prev rest then [[]] else []
  | ahead r, group, inCap, prev, rest => if (run r group inCap prev rest).isEmpty then [] else [[]]
  | recur r, _, inCap, prev, rest => ((run r)^[rest.length + 1] fun _ _ _ => []) inCap prev rest
  | call, group, inCap, prev, rest => group inCap prev rest

/-- The matches of a whole pattern. -/
def matchesAt (r : Regex) : Matcher := run r (fun _ _ _ => []) false

/-! ## Scanning -/

/-- A part of a scanned text. -/
inductive Part
  | other (c : Char)
  | found (m : Match)
  deriving DecidableEq

def Part.text : Part → List Char
  | .other c => [c]
  | .found m => m.text

def Part.isFound : Part → Bool
  | .other _ => false
  | .found _ => true

/-- **The matches in a text**, from the left and none over another; `n`
bounds the length of the text. A match of nothing is no match. -/
def scanFrom (r : Regex) : ℕ → Option Char → List Char → List Part
  | 0, _, rest => rest.map .other
  | _ + 1, _, [] => []
  | n + 1, prev, c :: rest =>
    match (r.matchesAt prev (c :: rest)).head? with
    | some (x :: m) =>
      .found (x :: m) :: scanFrom r n (Match.last prev (x :: m)) ((c :: rest).drop (m.length + 1))
    | _ => .other c :: scanFrom r n (some c) rest

def scan (r : Regex) (t : List Char) : List Part := scanFrom r t.length none t

/-! ## What matchers find -/

/-- Every match of the matcher is so, at its place. -/
def Matcher.Only (P : Option Char → List Char → Match → Prop) (f : Matcher) : Prop :=
  ∀ prev rest, ∀ m ∈ f prev rest, P prev rest m

/-- A set takes the next character. -/
theorem exists_of_mem_run_set {p : Char → Bool} {group : Bool → Matcher} {inCap : Bool}
    {prev : Option Char} {rest : List Char} {m : Match}
    (hm : m ∈ run (.set p) group inCap prev rest) :
    ∃ c rest', rest = c :: rest' ∧ p c = true ∧ m = [(c, inCap)] := by
  cases rest with
  | nil => cases hm
  | cons c rest =>
    simp only [run] at hm
    split_ifs at hm with hp
    · exact ⟨c, rest, rfl, hp, List.mem_singleton.1 hm⟩
    · cases hm

section Only

variable {P P' Q : Option Char → List Char → Match → Prop} {f g : Matcher}

theorem Matcher.Only.andThen (hf : f.Only P) (hg : g.Only P') (h : ∀ prev rest m m', P prev rest m →
      P' (m.last prev) (rest.drop m.length) m' → Q prev rest (m ++ m')) :
    (f.andThen g).Only Q := by
  intro prev rest m hm
  obtain ⟨m₁, hm₁, hm⟩ := List.mem_flatMap.1 hm
  obtain ⟨m₂, hm₂, rfl⟩ := List.mem_map.1 hm
  exact h _ _ m₁ m₂ (hf _ _ m₁ hm₁) (hg _ _ m₂ hm₂)

theorem Matcher.nil_mem_rounds (greedy : Bool) (f : Matcher) (n : ℕ) (prev : Option Char)
    (rest : List Char) : [] ∈ Matcher.rounds greedy f n prev rest := by
  cases n with
  | zero => exact List.mem_singleton_self _
  | succ n => cases greedy <;> simp [Matcher.rounds]

/-- Rounds are none, or one and then others. -/
theorem Matcher.mem_rounds_succ {greedy : Bool} {n : ℕ} {prev : Option Char} {rest : List Char}
    {m : Match} : m ∈ Matcher.rounds greedy f (n + 1) prev rest ↔
      m = [] ∨ ∃ m₁ ∈ f prev rest, m₁ ≠ [] ∧
        ∃ m₂ ∈ Matcher.rounds greedy f n (m₁.last prev) (rest.drop m₁.length), m = m₁ ++ m₂ := by
  have hmore : ∀ {ms : List Match}, m ∈ (ms.flatMap fun m₁ => if m₁.isEmpty then [[]]
        else (Matcher.rounds greedy f n (m₁.last prev) (rest.drop m₁.length)).map (m₁ ++ ·)) →
      m = [] ∨ ∃ m₁ ∈ ms, m₁ ≠ [] ∧
        ∃ m₂ ∈ Matcher.rounds greedy f n (m₁.last prev) (rest.drop m₁.length), m = m₁ ++ m₂ := by
    intro ms hm
    obtain ⟨m₁, hm₁, hm⟩ := List.mem_flatMap.1 hm
    split_ifs at hm with hempty
    · exact .inl (List.mem_singleton.1 hm)
    · obtain ⟨m₂, hm₂, rfl⟩ := List.mem_map.1 hm
      exact .inr ⟨m₁, hm₁, fun h => hempty (List.isEmpty_iff.2 h), m₂, hm₂, rfl⟩
  constructor
  · intro hm
    simp only [Matcher.rounds] at hm
    split_ifs at hm
    · rcases List.mem_append.1 hm with hm | hm
      · exact hmore hm
      · exact .inl (List.mem_singleton.1 hm)
    · rcases List.mem_cons.1 hm with hm | hm
      · exact .inl hm
      · exact hmore hm
  · rintro (rfl | ⟨m₁, hm₁, hne, m₂, hm₂, rfl⟩)
    · exact Matcher.nil_mem_rounds greedy f _ prev rest
    have hmem : m₁ ++ m₂ ∈ (f prev rest).flatMap fun m₁ => if m₁.isEmpty then [[]]
        else (Matcher.rounds greedy f n (m₁.last prev) (rest.drop m₁.length)).map (m₁ ++ ·) := by
      refine List.mem_flatMap.2 ⟨m₁, hm₁, ?_⟩
      rw [if_neg fun h => hne (List.isEmpty_iff.1 h)]
      exact List.mem_map.2 ⟨m₂, hm₂, rfl⟩
    simp only [Matcher.rounds]
    split_ifs
    · exact List.mem_append_left _ hmem
    · exact List.mem_cons_of_mem _ hmem

theorem Matcher.Only.rounds (hf : f.Only P) (hnil : ∀ prev rest, P prev rest [])
    (happ : ∀ prev rest m m', P prev rest m → P (m.last prev) (rest.drop m.length) m' →
      P prev rest (m ++ m')) (greedy : Bool) (n : ℕ) : (Matcher.rounds greedy f n).Only P := by
  induction n with
  | zero =>
    intro prev rest m hm
    rw [List.mem_singleton.1 hm]
    exact hnil prev rest
  | succ n ih =>
    intro prev rest m hm
    rcases Matcher.mem_rounds_succ.1 hm with rfl | ⟨m₁, hm₁, -, m₂, hm₂, rfl⟩
    · exact hnil prev rest
    · exact happ _ _ m₁ m₂ (hf _ _ m₁ hm₁) (ih _ _ m₂ hm₂)

/-- A group that calls itself: what holds inside of it if it holds of the
calls holds at every depth. -/
theorem only_iterate {r : Regex} (h : ∀ {group : Bool → Matcher},
      (∀ inCap, (group inCap).Only P) → ∀ inCap, (run r group inCap).Only P) (n : ℕ) :
    ∀ inCap, (((run r)^[n] fun _ _ _ => []) inCap).Only P := by
  induction n with
  | zero =>
    intro inCap prev rest m hm
    cases hm
  | succ n ih =>
    intro inCap
    rw [Function.iterate_succ_apply']
    exact h ih inCap

/-- A property of the character sets in a pattern, and of whether they
stand in `$1`. -/
def allSets (ok : (Char → Bool) → Bool → Bool) : Bool → Regex → Bool
  | inCap, set p => ok p inCap
  | inCap, seq r s => allSets ok inCap r && allSets ok inCap s
  | inCap, alt r s => allSets ok inCap r && allSets ok inCap s
  | inCap, star _ r => allSets ok inCap r
  | _, cap r => allSets ok true r
  | _, recur r => allSets ok true r && allSets ok false r
  | _, _ => true

/-- **What holds of a character that a set of the pattern takes holds of
the matches**, if it goes over to texts put together. -/
theorem only_run_of_allSets {ok : (Char → Bool) → Bool → Bool}
    (hset : ∀ p inCap prev c rest, ok p inCap = true → p c = true → P prev (c :: rest) [(c, inCap)])
    (hnil : ∀ prev rest, P prev rest [])
    (happ : ∀ prev rest m m', P prev rest m → P (m.last prev) (rest.drop m.length) m' →
      P prev rest (m ++ m')) (r : Regex) : ∀ {group : Bool → Matcher} {inCap : Bool},
    allSets ok inCap r = true → (∀ inCap, (group inCap).Only P) → (run r group inCap).Only P := by
  -- what takes nothing
  have hnone : ∀ {ms : List Match} {prev rest m}, (ms = [[]] ∨ ms = []) → m ∈ ms → P prev rest m := by
    rintro ms prev rest m (rfl | rfl) hm
    · rw [List.mem_singleton.1 hm]
      exact hnil prev rest
    · cases hm
  induction r with
  | eps => intro group inCap _ _ prev rest m hm; exact hnone (.inl rfl) hm
  | set p =>
    intro group inCap h _ prev rest m hm
    obtain ⟨c, rest, rfl, hp, rfl⟩ := exists_of_mem_run_set hm
    exact hset p inCap prev c rest h hp
  | seq r s ihr ihs =>
    intro group inCap h hgroup
    rw [allSets, Bool.and_eq_true] at h
    exact (ihr h.1 hgroup).andThen (ihs h.2 hgroup) happ
  | alt r s ihr ihs =>
    intro group inCap h hgroup prev rest m hm
    rw [allSets, Bool.and_eq_true] at h
    rcases List.mem_append.1 hm with hm | hm
    · exact ihr h.1 hgroup prev rest m hm
    · exact ihs h.2 hgroup prev rest m hm
  | star greedy r ih =>
    intro group inCap h hgroup prev rest m hm
    exact (ih h hgroup).rounds hnil happ greedy _ prev rest m hm
  | cap r ih =>
    intro group inCap h hgroup
    exact ih h hgroup
  | assert p =>
    intro group inCap _ _ prev rest m hm
    refine hnone ?_ hm
    simp only [run]
    split_ifs <;> simp
  | ahead r _ =>
    intro group inCap _ _ prev rest m hm
    refine hnone ?_ hm
    simp only [run]
    split_ifs <;> simp
  | recur r ih =>
    intro group inCap h _ prev rest m hm
    rw [allSets, Bool.and_eq_true] at h
    refine only_iterate (fun hgroup inCap => ?_) _ inCap prev rest m hm
    cases inCap
    · exact ih h.2 hgroup
    · exact ih h.1 hgroup
  | call => intro group inCap _ hgroup; exact hgroup inCap

end Only

/-- The same for every character of a match. -/
theorem forall_of_allSets {ok : (Char → Bool) → Bool → Bool} {Q : Char × Bool → Prop}
    (hok : ∀ p inCap c, ok p inCap = true → p c = true → Q (c, inCap)) {r : Regex}
    (h : allSets ok false r = true) : r.matchesAt.Only fun _ _ m => ∀ x ∈ m, Q x := by
  refine only_run_of_allSets (fun p inCap prev c rest hp hc x hx => ?_) (by simp)
    (fun _ _ m m' hm hm' x hx => ?_) r h (fun _ _ _ _ hm => by cases hm)
  · rw [List.mem_singleton.1 hx]
    exact hok p inCap c hp hc
  · rcases List.mem_append.1 hx with hx | hx
    · exact hm x hx
    · exact hm' x hx

/-- No set of the pattern has the character. -/
def avoids (d : Char) (r : Regex) : Bool := allSets (fun p _ => !p d) false r

theorem not_mem_of_avoids {d : Char} {r : Regex} (h : r.avoids d = true) :
    r.matchesAt.Only fun _ _ m => d ∉ m.text := by
  intro prev rest m hm hd
  obtain ⟨x, hx, rfl⟩ := List.mem_map.1 hd
  refine forall_of_allSets (Q := fun y => y.1 ≠ x.1) (fun p inCap c hp hc => ?_) h prev rest m hm x hx rfl
  rintro rfl
  simp [hc] at hp

/-- No set of the pattern stands in `$1`. -/
def capFree (r : Regex) : Bool := allSets (fun _ inCap => !inCap) false r

theorem snd_eq_false_of_capFree {r : Regex} (h : r.capFree = true) :
    r.matchesAt.Only fun _ _ m => ∀ x ∈ m, x.2 = false :=
  forall_of_allSets (fun _ _ _ hp _ => by simpa using hp) h

/-! ### How matches end -/

/-- A match that does not end in the character; with `strict` it takes
something. -/
def EndsNot (d : Char) (strict : Bool) (m : Match) : Prop :=
  (strict = true → m ≠ []) ∧ ∀ x ∈ m.getLast?, x.1 ≠ d

/-- No match of the pattern ends in the character. -/
def endsNot (d : Char) : Bool → Regex → Bool
  | _, set p => !p d
  | strict, seq r s => endsNot d true s || (endsNot d false s && endsNot d strict r)
  | strict, alt r s => endsNot d strict r && endsNot d strict s
  | strict, star _ r => !strict && endsNot d false r
  | strict, cap r => endsNot d strict r
  | strict, recur r => endsNot d false r && endsNot d strict r
  | strict, _ => !strict

section EndsNot

variable {d : Char} {strict : Bool} {m m' : Match}

theorem endsNot_nil (d : Char) : EndsNot d false [] := ⟨by simp, by simp⟩

theorem EndsNot.append_right (h : EndsNot d true m') : EndsNot d strict (m ++ m') := by
  have hne := h.1 rfl
  refine ⟨fun _ => by simp [hne], fun x hx => h.2 x ?_⟩
  rwa [List.getLast?_append_of_ne_nil _ hne] at hx

theorem EndsNot.append (h : EndsNot d strict m) (h' : EndsNot d false m') :
    EndsNot d strict (m ++ m') := by
  rcases eq_or_ne m' [] with rfl | hne
  · rwa [List.append_nil]
  · exact EndsNot.append_right ⟨fun _ => hne, h'.2⟩

end EndsNot

theorem only_run_of_endsNot {d : Char} (r : Regex) :
    ∀ {group : Bool → Matcher} {inCap strict : Bool}, endsNot d strict r = true →
    (∀ inCap, (group inCap).Only fun _ _ => EndsNot d false) →
    (run r group inCap).Only fun _ _ => EndsNot d strict := by
  -- what takes nothing
  have hnone : ∀ {strict : Bool} {ms : List Match} {m : Match}, (!strict) = true →
      (ms = [[]] ∨ ms = []) → m ∈ ms → EndsNot d strict m := by
    rintro strict ms m hstrict (rfl | rfl) hm
    · obtain rfl : strict = false := by simpa using hstrict
      rw [List.mem_singleton.1 hm]
      exact endsNot_nil d
    · cases hm
  induction r with
  | eps => intro group inCap strict h _ prev rest m hm; exact hnone h (.inl rfl) hm
  | set p =>
    intro group inCap strict h _ prev rest m hm
    obtain ⟨c, rest, rfl, hp, rfl⟩ := exists_of_mem_run_set hm
    refine ⟨by simp, fun x hx => ?_⟩
    obtain rfl := Option.some.inj hx
    rintro rfl
    simp [endsNot, hp] at h
  | seq r s ihr ihs =>
    intro group inCap strict h hgroup
    rw [endsNot, Bool.or_eq_true, Bool.and_eq_true] at h
    rcases h with hs | ⟨hs, hr⟩
    · exact Matcher.Only.andThen (P := fun _ _ _ => True) (fun _ _ _ _ => trivial) (ihs hs hgroup)
        fun _ _ m m' _ hm' => hm'.append_right
    · exact (ihr hr hgroup).andThen (ihs hs hgroup) fun _ _ m m' hm hm' => hm.append hm'
  | alt r s ihr ihs =>
    intro group inCap strict h hgroup prev rest m hm
    rw [endsNot, Bool.and_eq_true] at h
    rcases List.mem_append.1 hm with hm | hm
    · exact ihr h.1 hgroup prev rest m hm
    · exact ihs h.2 hgroup prev rest m hm
  | star greedy r ih =>
    intro group inCap strict h hgroup prev rest m hm
    rw [endsNot, Bool.and_eq_true, Bool.not_eq_true'] at h
    obtain ⟨rfl, hr⟩ := h
    exact (ih hr hgroup).rounds (fun _ _ => endsNot_nil d) (fun _ _ m m' hm hm' => hm.append hm')
      greedy _ prev rest m hm
  | cap r ih =>
    intro group inCap strict h hgroup
    exact ih h hgroup
  | assert p =>
    intro group inCap strict h _ prev rest m hm
    refine hnone h ?_ hm
    simp only [run]
    split_ifs <;> simp
  | ahead r _ =>
    intro group inCap strict h _ prev rest m hm
    refine hnone h ?_ hm
    simp only [run]
    split_ifs <;> simp
  | recur r ih =>
    intro group inCap strict h _ prev rest m hm
    rw [endsNot, Bool.and_eq_true] at h
    simp only [run, Function.iterate_succ_apply'] at hm
    exact ih h.2 (only_iterate (fun hgroup inCap => ih h.1 hgroup) _) prev rest m hm
  | call =>
    intro group inCap strict h hgroup
    obtain rfl : strict = false := by simpa [endsNot] using h
    exact hgroup inCap

/-! ### Matches are texts -/

theorem text_append (m m' : Match) : (m ++ m').text = m.text ++ m'.text := List.map_append

/-- **A match is what stands at its place.** -/
theorem text_append_drop (r : Regex) :
    r.matchesAt.Only fun _ rest m => m.text ++ rest.drop m.length = rest := by
  have hall : ∀ (r : Regex) (inCap : Bool), allSets (fun _ _ => true) inCap r = true := by
    intro r
    induction r <;> intro inCap <;> simp only [allSets, *, Bool.and_self]
  refine only_run_of_allSets (P := fun _ rest m => m.text ++ rest.drop m.length = rest) ?_
    (fun _ _ => rfl) (fun _ rest m m' hm hm' => ?_) r (hall r false) (fun _ _ _ _ hm => by cases hm)
  · intro p inCap prev c rest _ _
    rfl
  · rw [text_append, List.append_assoc, List.length_append, ← List.drop_drop, hm', hm]

theorem text_scanFrom (r : Regex) (n : ℕ) : ∀ (prev : Option Char) (t : List Char),
    (scanFrom r n prev t).flatMap Part.text = t := by
  induction n with
  | zero =>
    intro prev t
    rw [scanFrom, List.flatMap_map]
    exact List.flatMap_singleton' t
  | succ n ih =>
    intro prev t
    cases t with
    | nil => rfl
    | cons c rest =>
      simp only [scanFrom]
      split
      · rename_i x m hfirst
        have hm := text_append_drop r prev (c :: rest) _ (List.mem_of_mem_head? hfirst)
        rw [List.flatMap_cons, ih]
        exact hm
      · rw [List.flatMap_cons, ih]
        rfl

/-- **A scan takes the text apart.** -/
theorem text_scan (r : Regex) (t : List Char) : (scan r t).flatMap Part.text = t :=
  text_scanFrom r _ _ t

/-- **What a scan finds are matches.** -/
theorem exists_of_found_mem {r : Regex} (n : ℕ) : ∀ {prev : Option Char} {t : List Char} {m : Match},
    Part.found m ∈ scanFrom r n prev t → m ≠ [] ∧ ∃ prev' rest', m ∈ r.matchesAt prev' rest' := by
  induction n with
  | zero =>
    intro prev t m hm
    obtain ⟨c, -, hc⟩ := List.mem_map.1 hm
    cases hc
  | succ n ih =>
    intro prev t m hm
    cases t with
    | nil => cases hm
    | cons c rest =>
      simp only [scanFrom] at hm
      split at hm
      · rename_i x m' hfirst
        rcases List.mem_cons.1 hm with heq | hm
        · obtain rfl := Part.found.inj heq
          exact ⟨by simp, prev, _, List.mem_of_mem_head? hfirst⟩
        · exact ih hm
      · rcases List.mem_cons.1 hm with heq | hm
        · cases heq
        · exact ih hm

theorem Matcher.Only.of_found_mem {P : Match → Prop} {r : Regex}
    (h : r.matchesAt.Only fun _ _ => P) {t : List Char} {m : Match} (hm : Part.found m ∈ r.scan t) :
    P m := by
  obtain ⟨-, prev, rest, hmem⟩ := exists_of_found_mem _ hm
  exact h prev rest m hmem

end Regex

end CppEtudes
