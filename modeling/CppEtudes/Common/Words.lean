import CppEtudes.Common.Regex

/-!
# The texts of a pattern

A pattern read as a language: the texts it matches as a whole, without
the order in which an engine tries them. A group that calls itself is a
recursive language. For patterns without assertions the matches that are
found at a place are texts of the pattern (`word_text`), and without
recursion every text of the pattern that stands at a place is found there
(`exists_match_of_word`).
-/

namespace CppEtudes

namespace Regex

/-- **A text of a pattern**; `g` is the group around it, which `call`
stands for. -/
inductive Word : Option Regex → Regex → List Char → Prop
  | eps {g : Option Regex} : Word g .eps []
  | set {g : Option Regex} {p : Char → Bool} {c : Char} : p c = true → Word g (.set p) [c]
  | seq {g : Option Regex} {r s : Regex} {u v : List Char} :
    Word g r u → Word g s v → Word g (.seq r s) (u ++ v)
  | left {g : Option Regex} {r s : Regex} {u : List Char} : Word g r u → Word g (.alt r s) u
  | right {g : Option Regex} {r s : Regex} {u : List Char} : Word g s u → Word g (.alt r s) u
  | done {g : Option Regex} {greedy : Bool} {r : Regex} : Word g (.star greedy r) []
  | round {g : Option Regex} {greedy : Bool} {r : Regex} {u v : List Char} :
    Word g r u → Word g (.star greedy r) v → Word g (.star greedy r) (u ++ v)
  | cap {g : Option Regex} {r : Regex} {u : List Char} : Word g r u → Word g (.cap r) u
  | recur {g : Option Regex} {r : Regex} {u : List Char} : Word (some r) r u → Word g (.recur r) u
  | call {r : Regex} {u : List Char} : Word (some r) r u → Word (some r) .call u

/-! ## Texts by the form of the pattern -/

section Forms

variable {g : Option Regex} {r s : Regex} {p : Char → Bool} {w : List Char}

@[simp] theorem word_eps : Word g .eps w ↔ w = [] :=
  ⟨fun h => by cases h; rfl, fun h => h ▸ .eps⟩

@[simp] theorem word_set : Word g (.set p) w ↔ ∃ c, p c = true ∧ w = [c] := by
  constructor
  · rintro (_ | h)
    exact ⟨_, h, rfl⟩
  · rintro ⟨c, h, rfl⟩
    exact .set h

theorem word_seq : Word g (.seq r s) w ↔ ∃ u v, Word g r u ∧ Word g s v ∧ w = u ++ v := by
  constructor
  · rintro (_ | _ | ⟨hu, hv⟩)
    exact ⟨_, _, hu, hv, rfl⟩
  · rintro ⟨u, v, hu, hv, rfl⟩
    exact .seq hu hv

@[simp] theorem word_alt : Word g (.alt r s) w ↔ Word g r w ∨ Word g s w := by
  constructor
  · intro h
    cases h with
    | left h => exact .inl h
    | right h => exact .inr h
  · rintro (h | h)
    · exact .left h
    · exact .right h

@[simp] theorem word_recur : Word g (.recur r) w ↔ Word (some r) r w :=
  ⟨fun h => by cases h; assumption, .recur⟩

@[simp] theorem word_call : Word (some r) .call w ↔ Word (some r) r w :=
  ⟨fun h => by cases h; assumption, .call⟩

@[simp] theorem word_chr {c : Char} : Word g (chr c) w ↔ w = [c] := by
  simp [chr]

@[simp] theorem word_opt : Word g r.opt w ↔ Word g r w ∨ w = [] := by
  rw [opt, word_alt, word_eps]

theorem Word.star_flatten {greedy : Bool} {us : List (List Char)} (h : ∀ u ∈ us, Word g r u) :
    Word g (.star greedy r) us.flatten := by
  induction us with
  | nil => exact .done
  | cons u us ih =>
    exact .round (h u List.mem_cons_self) (ih fun x hx => h x (List.mem_cons_of_mem _ hx))

/-- **Rounds of a pattern** are texts of it one after the other, none of
them empty. -/
theorem word_star {greedy : Bool} : Word g (.star greedy r) w ↔
    ∃ us : List (List Char), (∀ u ∈ us, u ≠ [] ∧ Word g r u) ∧ w = us.flatten := by
  constructor
  · intro h
    generalize hs : Regex.star greedy r = s at h
    induction h with
    | done => exact ⟨[], by simp, rfl⟩
    | @round g b r' u v hu _ _ ihv =>
      obtain ⟨rfl, rfl⟩ := Regex.star.inj hs
      obtain ⟨us, hus, rfl⟩ := ihv rfl
      rcases eq_or_ne u [] with rfl | hne
      · exact ⟨us, hus, rfl⟩
      · refine ⟨u :: us, fun x hx => ?_, rfl⟩
        rcases List.mem_cons.1 hx with rfl | hx
        · exact ⟨hne, hu⟩
        · exact hus x hx
    | _ => cases hs
  · rintro ⟨us, hus, rfl⟩
    exact Word.star_flatten fun u hu => (hus u hu).2

theorem word_many : Word g r.many w ↔
    ∃ us : List (List Char), (∀ u ∈ us, Word g r u) ∧ w = us.flatten := by
  constructor
  · intro h
    obtain ⟨us, hus, rfl⟩ := word_star.1 h
    exact ⟨us, fun u hu => (hus u hu).2, rfl⟩
  · rintro ⟨us, hus, rfl⟩
    exact Word.star_flatten hus

theorem Word.star_append {greedy : Bool} {v : List Char} (hw : Word g (.star greedy r) w)
    (hv : Word g (.star greedy r) v) : Word g (.star greedy r) (w ++ v) := by
  obtain ⟨us, hus, rfl⟩ := word_star.1 hw
  obtain ⟨vs, hvs, rfl⟩ := word_star.1 hv
  refine word_star.2 ⟨us ++ vs, fun u hu => ?_, List.flatten_append.symm⟩
  rcases List.mem_append.1 hu with hu | hu
  · exact hus u hu
  · exact hvs u hu

theorem Word.star_single {greedy : Bool} (hw : Word g r w) : Word g (.star greedy r) w := by
  have h := Word.round hw (.done : Word g (.star greedy r) [])
  rwa [List.append_nil] at h

theorem word_many_set : Word g (many (.set p)) w ↔ ∀ c ∈ w, p c = true := by
  rw [word_many]
  constructor
  · rintro ⟨us, hus, rfl⟩ c hc
    obtain ⟨u, hu, hcu⟩ := List.mem_flatten.1 hc
    obtain ⟨d, hd, rfl⟩ := word_set.1 (hus u hu)
    rwa [List.mem_singleton.1 hcu]
  · intro h
    refine ⟨w.map fun c => [c], fun u hu => ?_, (List.flatMap_singleton' w).symm⟩
    obtain ⟨c, hc, rfl⟩ := List.mem_map.1 hu
    exact .set (h c hc)

theorem word_plus_set : Word g (plus (.set p)) w ↔ w ≠ [] ∧ ∀ c ∈ w, p c = true := by
  rw [plus, word_seq]
  constructor
  · rintro ⟨u, v, hu, hv, rfl⟩
    obtain ⟨c, hc, rfl⟩ := word_set.1 hu
    refine ⟨List.cons_ne_nil c v, fun d hd => ?_⟩
    rcases List.mem_cons.1 hd with rfl | hd
    · exact hc
    · exact word_many_set.1 hv d hd
  · rintro ⟨hne, h⟩
    obtain ⟨c, v, rfl⟩ := List.exists_cons_of_ne_nil hne
    refine ⟨[c], v, .set (h c List.mem_cons_self), word_many_set.2 fun d hd => ?_, rfl⟩
    exact h d (List.mem_cons_of_mem _ hd)

theorem word_cat_cons {rs : List Regex} :
    Word g (cat (r :: rs)) w ↔ ∃ u v, Word g r u ∧ Word g (cat rs) v ∧ w = u ++ v := by
  cases rs with
  | nil =>
    rw [cat]
    constructor
    · intro h
      exact ⟨w, [], h, .eps, (List.append_nil w).symm⟩
    · rintro ⟨u, v, hu, hv, rfl⟩
      rwa [word_eps.1 hv, List.append_nil]
  | cons s rs => exact word_seq

@[simp] theorem word_cat_nil : Word g (cat []) w ↔ w = [] := word_eps

theorem word_cat_append {rs ss : List Regex} :
    Word g (cat (rs ++ ss)) w ↔ ∃ u v, Word g (cat rs) u ∧ Word g (cat ss) v ∧ w = u ++ v := by
  induction rs generalizing w with
  | nil =>
    constructor
    · intro h
      exact ⟨[], w, .eps, h, rfl⟩
    · rintro ⟨u, v, hu, hv, rfl⟩
      rwa [word_cat_nil.1 hu, List.nil_append]
  | cons r rs ih =>
    rw [List.cons_append, word_cat_cons]
    constructor
    · rintro ⟨u, v, hu, hv, rfl⟩
      obtain ⟨v₁, v₂, hv₁, hv₂, rfl⟩ := ih.1 hv
      exact ⟨u ++ v₁, v₂, word_cat_cons.2 ⟨u, v₁, hu, hv₁, rfl⟩, hv₂, (List.append_assoc ..).symm⟩
    · rintro ⟨u, v, hu, hv, rfl⟩
      obtain ⟨u₁, u₂, hu₁, hu₂, rfl⟩ := word_cat_cons.1 hu
      exact ⟨u₁, u₂ ++ v, hu₁, ih.2 ⟨u₂, v, hu₂, hv, rfl⟩, List.append_assoc ..⟩

theorem word_lit {t : String} : Word g (lit t) w ↔ w = t.toList := by
  have h : ∀ cs w : List Char, Word g (cat (cs.map chr)) w ↔ w = cs := by
    intro cs
    induction cs with
    | nil => exact fun w => word_cat_nil
    | cons c cs ih =>
      intro w
      rw [List.map_cons, word_cat_cons]
      constructor
      · rintro ⟨u, v, hu, hv, rfl⟩
        rw [word_chr.1 hu, (ih v).1 hv, List.singleton_append]
      · rintro rfl
        exact ⟨[c], cs, word_chr.2 rfl, (ih cs).2 rfl, rfl⟩
  exact h t.toList w

end Forms

/-! ## Texts and matches -/

/-- A pattern without assertions. -/
def plain : Regex → Bool
  | seq r s => plain r && plain s
  | alt r s => plain r && plain s
  | star _ r => plain r
  | cap r => plain r
  | recur r => plain r
  | assert _ => false
  | ahead _ => false
  | _ => true

theorem word_text_run (r : Regex) : ∀ {g : Option Regex} {group : Bool → Matcher} {inCap : Bool},
    r.plain = true →
    (∀ inCap, (group inCap).Only fun _ _ m => Word g .call m.text) →
    (run r group inCap).Only fun _ _ m => Word g r m.text := by
  induction r with
  | eps =>
    intro g group inCap _ _ prev rest m hm
    rw [List.mem_singleton.1 hm]
    exact .eps
  | set p =>
    intro g group inCap _ _ prev rest m hm
    obtain ⟨c, rest, rfl, hp, rfl⟩ := exists_of_mem_run_set hm
    exact .set hp
  | seq r s ihr ihs =>
    intro g group inCap h hgroup
    rw [plain, Bool.and_eq_true] at h
    refine (ihr h.1 hgroup).andThen (ihs h.2 hgroup) fun _ _ m m' hm hm' => ?_
    rw [text_append]
    exact .seq hm hm'
  | alt r s ihr ihs =>
    intro g group inCap h hgroup prev rest m hm
    rw [plain, Bool.and_eq_true] at h
    rcases List.mem_append.1 hm with hm | hm
    · exact .left (ihr h.1 hgroup prev rest m hm)
    · exact .right (ihs h.2 hgroup prev rest m hm)
  | star greedy r ih =>
    intro g group inCap h hgroup prev rest m hm
    have hone : (run r group inCap).Only fun _ _ m => Word g (.star greedy r) m.text :=
      fun prev rest m hm => (ih h hgroup prev rest m hm).star_single
    refine hone.rounds (fun _ _ => .done) (fun _ _ m m' hm hm' => ?_) greedy _ prev rest m hm
    rw [text_append]
    exact hm.star_append hm'
  | cap r ih =>
    intro g group inCap h hgroup prev rest m hm
    exact .cap (ih h hgroup prev rest m hm)
  | assert p => intro g group inCap h; cases h
  | ahead r _ => intro g group inCap h; cases h
  | recur r ih =>
    intro g group inCap h _ prev rest m hm
    refine .recur ?_
    refine only_iterate (P := fun _ _ m => Word (some r) r m.text) (fun hgroup inCap => ?_) _ inCap
      prev rest m hm
    exact ih h fun inCap prev rest m hm => .call (hgroup inCap prev rest m hm)
  | call => intro g group inCap _ hgroup; exact hgroup inCap

/-- **What is found is a text of the pattern.** -/
theorem word_text {r : Regex} (h : r.plain = true) :
    r.matchesAt.Only fun _ _ m => Word none r m.text :=
  word_text_run r h fun _ _ _ _ hm => nomatch hm

/-- A pattern without assertions and recursion. -/
def direct : Regex → Bool
  | seq r s => direct r && direct s
  | alt r s => direct r && direct s
  | star _ r => direct r
  | cap r => direct r
  | eps => true
  | set _ => true
  | _ => false

theorem exists_mem_rounds {greedy : Bool} {f : Matcher} {us : List (List Char)}
    (hus : ∀ u ∈ us, u ≠ [] ∧ ∀ prev rest, ∃ m ∈ f prev (u ++ rest), m.text = u) :
    ∀ (n : ℕ) (prev : Option Char) (rest : List Char), us.flatten.length ≤ n →
      ∃ m ∈ Matcher.rounds greedy f n prev (us.flatten ++ rest), m.text = us.flatten := by
  induction us with
  | nil =>
    intro n prev rest _
    exact ⟨[], Matcher.nil_mem_rounds greedy f n prev _, rfl⟩
  | cons u us ih =>
    intro n prev rest hn
    obtain ⟨hne, hu⟩ := hus u List.mem_cons_self
    have hpos := List.length_pos_iff.2 hne
    rw [List.flatten_cons, List.length_append] at hn
    obtain ⟨k, rfl⟩ : ∃ k, n = k + 1 := ⟨n - 1, by omega⟩
    obtain ⟨m₁, hm₁, htext⟩ := hu prev (us.flatten ++ rest)
    have hlen : m₁.length = u.length := by rw [← htext, Match.text, List.length_map]
    obtain ⟨m₂, hm₂, htext₂⟩ := ih (fun v hv => hus v (List.mem_cons_of_mem _ hv)) k (m₁.last prev)
      rest (by omega)
    refine ⟨m₁ ++ m₂, Matcher.mem_rounds_succ.2 (.inr ⟨m₁, ?_, ?_, m₂, ?_, rfl⟩), ?_⟩
    · rwa [List.flatten_cons, List.append_assoc]
    · rintro rfl
      rw [List.length_nil] at hlen
      omega
    · rwa [hlen, List.flatten_cons, List.append_assoc, List.drop_left]
    · rw [text_append, htext, htext₂, List.flatten_cons]

theorem exists_mem_run_of_word (r : Regex) : ∀ {g : Option Regex} {group : Bool → Matcher}
    {inCap : Bool} {w : List Char}, r.direct = true → Word g r w →
    ∀ (prev : Option Char) (rest : List Char), ∃ m ∈ run r group inCap prev (w ++ rest), m.text = w := by
  induction r with
  | eps =>
    intro g group inCap w _ hw prev rest
    rw [word_eps.1 hw]
    exact ⟨[], List.mem_singleton_self _, rfl⟩
  | set p =>
    intro g group inCap w _ hw prev rest
    obtain ⟨c, hc, rfl⟩ := word_set.1 hw
    exact ⟨[(c, inCap)], by simp [run, hc], rfl⟩
  | seq r s ihr ihs =>
    intro g group inCap w h hw prev rest
    rw [direct, Bool.and_eq_true] at h
    obtain ⟨u, v, hu, hv, rfl⟩ := word_seq.1 hw
    obtain ⟨m₁, hm₁, htext⟩ := ihr h.1 hu prev (v ++ rest)
    obtain ⟨m₂, hm₂, htext₂⟩ := ihs h.2 hv (m₁.last prev) rest
    have hlen : m₁.length = u.length := by rw [← htext, Match.text, List.length_map]
    refine ⟨m₁ ++ m₂, ?_, by rw [text_append, htext, htext₂]⟩
    rw [List.append_assoc]
    refine List.mem_flatMap.2 ⟨m₁, hm₁, List.mem_map.2 ⟨m₂, ?_, rfl⟩⟩
    rwa [hlen, List.drop_left]
  | alt r s ihr ihs =>
    intro g group inCap w h hw prev rest
    rw [direct, Bool.and_eq_true] at h
    rcases word_alt.1 hw with hw | hw
    · obtain ⟨m, hm, htext⟩ := ihr h.1 hw prev rest
      exact ⟨m, List.mem_append_left _ hm, htext⟩
    · obtain ⟨m, hm, htext⟩ := ihs h.2 hw prev rest
      exact ⟨m, List.mem_append_right _ hm, htext⟩
  | star greedy r ih =>
    intro g group inCap w h hw prev rest
    obtain ⟨us, hus, rfl⟩ := word_star.1 hw
    refine exists_mem_rounds (fun u hu => ⟨(hus u hu).1, ih h (hus u hu).2⟩) _ prev rest ?_
    rw [List.length_append]
    omega
  | cap r ih =>
    intro g group inCap w h hw prev rest
    cases hw with
    | cap hw => exact ih h hw prev rest
  | assert p => intro g group inCap w h; cases h
  | ahead r _ => intro g group inCap w h; cases h
  | recur r _ => intro g group inCap w h; cases h
  | call => intro g group inCap w h; cases h

/-- **A text of the pattern is found where it stands.** -/
theorem exists_match_of_word {r : Regex} {w : List Char} (h : r.direct = true)
    (hw : Word none r w) (prev : Option Char) (rest : List Char) :
    ∃ m ∈ r.matchesAt prev (w ++ rest), m.text = w :=
  exists_mem_run_of_word r h hw prev rest

end Regex

end CppEtudes
