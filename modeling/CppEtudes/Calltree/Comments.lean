import CppEtudes.Calltree.Model.Preprocess
import CppEtudes.Common.Words
import Mathlib.Algebra.Order.BigOperators.Group.List
import Mathlib.Algebra.Order.Group.Nat
import Mathlib.Data.List.Chain

/-!
# Block comments

What `replace_slash_star_comment` takes out of a text, and what block
comments C has in it. The pattern lets no star and slash stand next to
each other between the ends of a comment. So it matches the comments
whose body has no second `/*`; of another comment it takes out the part
from the last `/*` on.
-/

namespace CppEtudes

namespace Calltree

open Regex Edit

/-! ## Comments in C -/

/-- The text up to the first `*/`, and the text behind it. -/
def splitClose : Text → Option (Text × Text)
  | [] => none
  | c :: t =>
    if c = '*' ∧ t.head? = some '/' then some ([], t.tail)
    else (splitClose t).map fun s => (c :: s.1, s.2)

/-- The comment a text begins with: its body and the text behind it. -/
def openComment (t : Text) : Option (Text × Text) :=
  if t.take 2 = ['/', '*'] then splitClose (t.drop 2) else none

/-- A part of a text as C reads it. -/
inductive Segment
  | code (c : Char)
  | comment (body : Text)
  deriving DecidableEq

/-- **The block comments of a text**: one starts at a `/*` outside of any
earlier one and ends at the first `*/` behind that; `n` bounds the length
of the text. -/
def segmentsFrom : ℕ → Text → List Segment
  | 0, t => t.map .code
  | _ + 1, [] => []
  | n + 1, c :: t =>
    match openComment (c :: t) with
    | some (body, rest) => .comment body :: segmentsFrom n rest
    | none => .code c :: segmentsFrom n t

def segments (t : Text) : List Segment := segmentsFrom t.length t

def isLineBreak (c : Char) : Bool := c == '\n' || c == '\r'

/-- A comment goes, its line breaks stay. -/
def Segment.stripped : Segment → Text
  | .code c => [c]
  | .comment body => body.filter isLineBreak

/-! ### Where comments end -/

/-- Two characters do not stand next to each other in this order. -/
def Without (a b : Char) (t : Text) : Prop := ¬ [a, b] <:+: t

instance (a b : Char) (t : Text) : Decidable (Without a b t) := inferInstanceAs (Decidable (¬ _))

variable {t body rest : Text}

theorem without_iff {a b : Char} : Without a b t ↔ t.IsChain fun x y => ¬ (x = a ∧ y = b) := by
  rw [List.isChain_iff_forall_rel_of_append_cons_cons]
  constructor
  · rintro h x y u v rfl ⟨rfl, rfl⟩
    exact h ⟨u, v, by simp⟩
  · rintro h ⟨u, v, rfl⟩
    exact h (List.append_assoc u [a, b] v) ⟨rfl, rfl⟩

theorem without_nil (a b : Char) : Without a b [] := by
  rw [without_iff]
  exact .nil

theorem without_cons {a b c : Char} :
    Without a b (c :: t) ↔ ¬ (c = a ∧ t.head? = some b) ∧ Without a b t := by
  rw [without_iff, without_iff, List.isChain_cons]
  refine and_congr_left fun _ => ?_
  cases t with
  | nil => simp
  | cons d t => simp

theorem splitClose_eq_some :
    splitClose t = some (body, rest) ↔ t = body ++ '*' :: '/' :: rest ∧ Without '*' '/' body := by
  induction t generalizing body with
  | nil => simp [splitClose]
  | cons c t ih =>
    rw [splitClose]
    split_ifs with hclose
    · obtain ⟨rfl, ht⟩ := hclose
      obtain ⟨t, rfl⟩ := List.head?_eq_some_iff.1 ht
      constructor
      · intro h
        obtain ⟨rfl, rfl⟩ := Prod.mk.inj (Option.some.inj h)
        exact ⟨rfl, without_nil _ _⟩
      · rintro ⟨heq, hbody⟩
        -- a body that is not empty would have the `*/` in it
        cases body with
        | nil => simpa using heq
        | cons x body =>
          obtain ⟨rfl, htail⟩ := List.cons.inj heq
          cases body with
          | nil => simp at htail
          | cons y body =>
            obtain ⟨rfl, -⟩ := List.cons.inj htail
            exact absurd ⟨rfl, rfl⟩ (without_cons.1 hbody).1
    · rw [Option.map_eq_some_iff]
      constructor
      · rintro ⟨⟨body', rest'⟩, hsplit, heq⟩
        obtain ⟨rfl, rfl⟩ := Prod.mk.inj heq
        obtain ⟨rfl, hbody⟩ := ih.1 hsplit
        refine ⟨rfl, without_cons.2 ⟨fun ⟨hc, hhead⟩ => hclose ⟨hc, ?_⟩, hbody⟩⟩
        rw [List.head?_append, hhead]
        rfl
      · rintro ⟨heq, hbody⟩
        cases body with
        | nil =>
          obtain ⟨rfl, rfl⟩ := List.cons.inj heq
          exact absurd ⟨rfl, rfl⟩ hclose
        | cons x body =>
          obtain ⟨rfl, htail⟩ := List.cons.inj heq
          exact ⟨(body, rest), ih.2 ⟨htail, (without_cons.1 hbody).2⟩, rfl⟩

/-- **A comment at the beginning of a text.** -/
theorem openComment_eq_some : openComment t = some (body, rest) ↔
    t = '/' :: '*' :: (body ++ '*' :: '/' :: rest) ∧ Without '*' '/' body := by
  rw [openComment]
  constructor
  · intro h
    split_ifs at h with hopen
    obtain ⟨hdrop, hbody⟩ := splitClose_eq_some.1 h
    refine ⟨?_, hbody⟩
    rw [← List.take_append_drop 2 t, hopen, hdrop]
    rfl
  · rintro ⟨rfl, hbody⟩
    exact splitClose_eq_some.2 ⟨rfl, hbody⟩

/-! ## The texts of the pattern -/

/-- What may stand next to each other in a comment of the pattern. -/
def Apart (x y : Char) : Prop := ¬ (x = '*' ∧ y = '/') ∧ ¬ (x = '/' ∧ y = '*')

def isOther (c : Char) : Bool := c != '/' && c != '*'

section Pattern

variable {g : Option Regex} {w : Text}

/-- Stars or slashes. -/
def reRun : Regex := oneOf [(chr '*').plus, (chr '/').plus]

theorem word_reRun : Word g reRun w ↔ w ≠ [] ∧ ((∀ c ∈ w, c = '*') ∨ ∀ c ∈ w, c = '/') := by
  have hrun : Word g reRun w ↔ Word g (chr '*').plus w ∨ Word g (chr '/').plus w := word_alt
  rw [hrun, chr, chr, word_plus_set, word_plus_set, ← and_or_left]
  simp only [beq_iff_eq]

theorem word_others_iff : Word g (reNotIn "/*").many w ↔ ∀ c ∈ w, isOther c = true := by
  rw [reNotIn, word_many_set]
  simp [isOther]

theorem word_others_plus_iff :
    Word g (reNotIn "/*").plus w ↔ w ≠ [] ∧ ∀ c ∈ w, isOther c = true := by
  rw [reNotIn, word_plus_set]
  simp [isOther]

theorem isOther_eq_false {c : Char} : isOther c = false ↔ c = '*' ∨ c = '/' := by
  rw [isOther, Bool.and_eq_false_iff, bne_eq_false_iff_eq, bne_eq_false_iff_eq, or_comm]

theorem apart_of_isOther_left {x y : Char} (h : isOther x = true) : Apart x y := by
  simp only [isOther, Bool.and_eq_true, bne_iff_ne] at h
  exact ⟨fun hx => h.2 hx.1, fun hx => h.1 hx.1⟩

theorem apart_of_isOther_right {x y : Char} (h : isOther y = true) : Apart x y := by
  simp only [isOther, Bool.and_eq_true, bne_iff_ne] at h
  exact ⟨fun hx => h.1 hx.2, fun hx => h.2 hx.2⟩

theorem isChain_of_others (h : ∀ c ∈ w, isOther c = true) : w.IsChain Apart :=
  List.Pairwise.isChain (List.pairwise_of_forall_mem_list fun x hx _ _ => apart_of_isOther_left (h x hx))

theorem isChain_of_run (h : (∀ c ∈ w, c = '*') ∨ ∀ c ∈ w, c = '/') : w.IsChain Apart := by
  refine List.Pairwise.isChain (List.pairwise_of_forall_mem_list fun x hx y hy => ?_)
  rcases h with h | h <;> rw [h x hx, h y hy] <;> exact ⟨by decide, by decide⟩

/-- The body of a comment in the pattern. -/
def reBody : Regex :=
  cat [(reNotIn "/*").many, (cat [reRun, (reNotIn "/*").plus]).many, reRun.opt]

/-- What follows characters that are no stars and slashes. -/
theorem isChain_append_of_others {v : Text} (hw : ∀ c ∈ w, isOther c = true) (hv : v.IsChain Apart) :
    (w ++ v).IsChain Apart := by
  refine List.isChain_append.2 ⟨isChain_of_others hw, hv, fun x hx y _ => ?_⟩
  exact apart_of_isOther_left (hw x (List.mem_of_mem_getLast? hx))

theorem isChain_of_rounds {us : List Text} {v : Text} (hv : v.IsChain Apart)
    (hus : ∀ u ∈ us, Word g (cat [reRun, (reNotIn "/*").plus]) u) :
    (us.flatten ++ v).IsChain Apart := by
  induction us with
  | nil => exact hv
  | cons u us ih =>
    have htail := ih fun x hx => hus x (List.mem_cons_of_mem _ hx)
    obtain ⟨run, other, hrun, hother, rfl⟩ := word_seq.1 (hus u List.mem_cons_self)
    obtain ⟨hne, hother⟩ := word_others_plus_iff.1 hother
    rw [List.flatten_cons, List.append_assoc, List.append_assoc]
    refine List.isChain_append.2 ⟨isChain_of_run (word_reRun.1 hrun).2,
      isChain_append_of_others hother htail, fun x _ y hy => ?_⟩
    -- a run is followed by something else
    obtain ⟨c, other, rfl⟩ := List.exists_cons_of_ne_nil hne
    obtain rfl : c = y := by simpa using hy
    exact apart_of_isOther_right (hother c List.mem_cons_self)

/-- A text up to the first character that is not so. -/
theorem exists_span (p : Char → Bool) (w : Text) :
    ∃ u v, w = u ++ v ∧ (∀ c ∈ u, p c = true) ∧ ∀ c ∈ v.head?, p c = false := by
  refine ⟨_, _, List.takeWhile_append_dropWhile.symm, fun c hc => List.mem_takeWhile_imp hc, ?_⟩
  intro c hc
  have hnot := List.head?_dropWhile_not p w
  rw [hc] at hnot
  exact hnot

/-- A text that begins with no other characters than stars and slashes:
the first run of them, the characters behind it, and again such a text. -/
theorem word_rounds_of_isChain (h : w.IsChain Apart) (hhead : ∀ c ∈ w.head?, isOther c = false) :
    Word g (cat [(cat [reRun, (reNotIn "/*").plus]).many, reRun.opt]) w := by
  induction hn : w.length using Nat.strong_induction_on generalizing w with
  | _ n ih =>
    cases w with
    | nil => exact .seq (u := []) (v := []) .done (word_opt.2 (.inr rfl))
    | cons d w =>
      have hd := isOther_eq_false.1 (hhead d rfl)
      obtain ⟨run, rest, hw, hrun, hrest⟩ := exists_span (· == d) w
      subst hw
      rw [← List.cons_append] at h hn ⊢
      obtain ⟨-, hchain, hjoin⟩ := List.isChain_append.1 h
      have hall : ∀ c ∈ d :: run, c = d := by
        intro c hc
        rcases List.mem_cons.1 hc with hc | hc
        · exact hc
        · exact beq_iff_eq.1 (hrun c hc)
      have hword : Word g reRun (d :: run) := by
        refine word_reRun.2 ⟨List.cons_ne_nil d run, ?_⟩
        rcases hd with rfl | rfl
        · exact .inl hall
        · exact .inr hall
      obtain ⟨other, tail, rfl, hother, htail⟩ := exists_span isOther rest
      rcases eq_or_ne other [] with rfl | hne
      · -- nothing can follow the run then
        have hnil : tail = [] := by
          by_contra hne
          obtain ⟨y, tail, rfl⟩ := List.exists_cons_of_ne_nil hne
          have hy : y ≠ d := by simpa using hrest y rfl
          have hlast := List.getLast?_eq_some_getLast (List.cons_ne_nil d run)
          have hxy := hjoin _ hlast y rfl
          rw [hall _ (List.mem_of_mem_getLast? hlast)] at hxy
          rcases hd with rfl | rfl
          · exact hxy.1 ⟨rfl, (isOther_eq_false.1 (htail y rfl)).resolve_left hy⟩
          · exact hxy.2 ⟨rfl, (isOther_eq_false.1 (htail y rfl)).resolve_right hy⟩
        subst hnil
        exact .seq (u := []) .done (word_opt.2 (.inl (by simpa using hword)))
      · have hlen : tail.length < n := by
          rw [← hn]
          simp only [List.length_append, List.length_cons]
          omega
        obtain ⟨rounds, last, hrounds, hlast, rfl⟩ :=
          word_seq.1 (ih _ hlen (List.isChain_append.1 hchain).2.1 htail rfl)
        have hround : Word g (cat [reRun, (reNotIn "/*").plus]) (d :: run ++ other) :=
          .seq hword (word_others_plus_iff.2 ⟨hne, hother⟩)
        have heq : d :: run ++ (other ++ (rounds ++ last)) = d :: run ++ other ++ rounds ++ last := by
          simp only [List.append_assoc]
        rw [heq]
        exact .seq (.round hround hrounds) hlast

theorem word_reBody : Word g reBody w ↔ w.IsChain Apart := by
  rw [reBody, word_cat_cons]
  constructor
  · rintro ⟨o, v, ho, hv, rfl⟩
    obtain ⟨rounds, last, hrounds, hlast, rfl⟩ := word_seq.1 hv
    obtain ⟨us, hus, rfl⟩ := word_many.1 hrounds
    refine isChain_append_of_others (word_others_iff.1 ho) (isChain_of_rounds ?_ hus)
    rcases word_opt.1 hlast with hlast | rfl
    · exact isChain_of_run (word_reRun.1 hlast).2
    · exact .nil
  · intro h
    obtain ⟨o, v, rfl, ho, hv⟩ := exists_span isOther w
    exact ⟨o, v, word_others_iff.2 ho, word_rounds_of_isChain (List.isChain_append.1 h).2.1 hv, rfl⟩

/-- **The texts of the pattern** are the comments whose body has neither
a `*/` nor a `/*`. -/
theorem word_reSlashStarComment : Word g reSlashStarComment w ↔
    ∃ body, w = '/' :: '*' :: (body ++ ['*', '/']) ∧ Without '*' '/' body ∧ Without '/' '*' body := by
  have hapart : ∀ body : Text,
      body.IsChain Apart ↔ Without '*' '/' body ∧ Without '/' '*' body := by
    intro body
    simp only [without_iff, List.isChain_iff_forall_rel_of_append_cons_cons, Apart]
    constructor
    · exact fun h => ⟨fun x y u v heq => (h heq).1, fun x y u v heq => (h heq).2⟩
    · exact fun h x y u v heq => ⟨h.1 heq, h.2 heq⟩
  have hpattern : reSlashStarComment = cat (lit "/*" ::
      ([(reNotIn "/*").many, (cat [reRun, (reNotIn "/*").plus]).many, reRun.opt] ++ [lit "*/"])) :=
    rfl
  rw [hpattern, word_cat_cons]
  constructor
  · rintro ⟨u, v, hu, hv, rfl⟩
    obtain ⟨body, close, hbody, hclose, rfl⟩ := word_cat_append.1 hv
    rw [word_lit.1 hu, word_lit.1 hclose]
    exact ⟨body, rfl, (hapart body).1 (word_reBody.1 hbody)⟩
  · rintro ⟨body, rfl, hbody⟩
    exact ⟨['/', '*'], body ++ ['*', '/'], word_lit.2 rfl, word_cat_append.2
      ⟨body, ['*', '/'], word_reBody.2 ((hapart body).2 hbody), word_lit.2 rfl, rfl⟩, rfl⟩

end Pattern

/-! ## What the pattern finds -/

section Found

variable (prev : Option Char)

/-- What is found is the comment the text begins with. -/
theorem openComment_of_mem {m : Match} (hm : m ∈ reSlashStarComment.matchesAt prev t) :
    ∃ body, m.text = '/' :: '*' :: (body ++ ['*', '/']) ∧
      openComment t = some (body, t.drop m.length) ∧ Without '/' '*' body := by
  obtain ⟨body, htext, hclose, hopen⟩ :=
    word_reSlashStarComment.1 (word_text (by decide) prev t m hm)
  refine ⟨body, htext, openComment_eq_some.2 ⟨?_, hclose⟩, hopen⟩
  have ht : m.text ++ t.drop m.length = t := text_append_drop reSlashStarComment prev t m hm
  rw [htext] at ht
  simpa using ht.symm

/-- **A comment without a second `/*` is found** where it stands. -/
theorem head?_matchesAt_of_openComment (h : openComment t = some (body, rest))
    (hbody : Without '/' '*' body) : ∃ m, (reSlashStarComment.matchesAt prev t).head? = some m ∧
      m.text = '/' :: '*' :: (body ++ ['*', '/']) ∧ t.drop m.length = rest := by
  have hword : Word none reSlashStarComment ('/' :: '*' :: (body ++ ['*', '/'])) :=
    word_reSlashStarComment.2 ⟨body, rfl, (openComment_eq_some.1 h).2, hbody⟩
  obtain ⟨m, hm, -⟩ := exists_match_of_word (by decide) hword prev rest
  have ht : '/' :: '*' :: (body ++ ['*', '/']) ++ rest = t := by
    rw [(openComment_eq_some.1 h).1]
    simp
  rw [ht] at hm
  obtain ⟨m', hm'⟩ := Option.isSome_iff_exists.1
    (List.isSome_head?.2 (List.ne_nil_of_mem hm))
  refine ⟨m', hm', ?_⟩
  obtain ⟨body', htext, hopen, -⟩ := openComment_of_mem prev (List.mem_of_mem_head? hm')
  rw [h] at hopen
  obtain ⟨rfl, hrest⟩ := Prod.mk.inj (Option.some.inj hopen)
  exact ⟨htext, hrest.symm⟩

/-- Elsewhere nothing is found. -/
theorem head?_matchesAt_eq_none (h : ∀ body rest, openComment t = some (body, rest) →
      ¬ Without '/' '*' body) : (reSlashStarComment.matchesAt prev t).head? = none := by
  rw [List.head?_eq_none_iff, List.eq_nil_iff_forall_not_mem]
  intro m hm
  obtain ⟨body, -, hopen, hbody⟩ := openComment_of_mem prev hm
  exact h body _ hopen hbody

end Found

/-! ## What is left -/

/-- The text that a scan with the pattern leaves. -/
def leftFrom (n : ℕ) (prev : Option Char) (t : Text) : Text :=
  target ((scanFrom reSlashStarComment n prev t).flatMap (ofPart blankLines))

section Left

variable {n : ℕ} (prev : Option Char)

theorem target_blankLines (m : Match) : target (blankLines m) = m.text.filter isLineBreak :=
  target_keepOnly isLineBreak m

/-- A comment that is found. -/
theorem leftFrom_comment (h : openComment t = some (body, rest)) (hbody : Without '/' '*' body) :
    ∃ prev', leftFrom (n + 1) prev t = body.filter isLineBreak ++ leftFrom n prev' rest := by
  obtain ⟨m, hm, htext, hrest⟩ := head?_matchesAt_of_openComment prev h hbody
  obtain ⟨x, m, rfl⟩ : ∃ x m', m = x :: m' := by
    cases m with
    | nil => cases htext
    | cons x m => exact ⟨x, m, rfl⟩
  cases t with
  | nil => exact absurd (openComment_eq_some.1 h).1 (by simp)
  | cons c t =>
    refine ⟨Match.last prev (x :: m), ?_⟩
    rw [List.length_cons] at hrest
    simp only [leftFrom, scanFrom, hm, hrest, List.flatMap_cons, target_append, ofPart,
      target_blankLines, htext]
    congr 1
    simp [isLineBreak]

/-- A character that stays. -/
theorem leftFrom_code {c : Char} (h : ∀ body rest, openComment (c :: t) = some (body, rest) →
      ¬ Without '/' '*' body) : leftFrom (n + 1) prev (c :: t) = c :: leftFrom n (some c) t := by
  rw [leftFrom, scanFrom, head?_matchesAt_eq_none prev h]
  rfl

/-- Characters that stay, one after the other. -/
theorem leftFrom_codes {s : Text} (h : ∀ c s', c :: s' <:+ s → ∀ body rest,
      openComment (c :: s' ++ t) = some (body, rest) → ¬ Without '/' '*' body) :
    ∀ prev, ∃ prev', leftFrom (n + s.length) prev (s ++ t) = s ++ leftFrom n prev' t := by
  induction s with
  | nil => exact fun prev => ⟨prev, rfl⟩
  | cons c s ih =>
    intro prev
    obtain ⟨prev', hleft⟩ := ih (fun d s' hs => h d s' (hs.trans (List.suffix_cons c s))) (some c)
    refine ⟨prev', ?_⟩
    refine (leftFrom_code prev (h c s List.suffix_rfl)).trans ?_
    exact congrArg (c :: ·) hleft

end Left

/-! ### Comments with a second `/*` -/

/-- The text before the last `/*`, and the text behind it. -/
def lastOpen : Text → Option (Text × Text)
  | [] => none
  | c :: t =>
    match lastOpen t with
    | some s => some (c :: s.1, s.2)
    | none => if c = '/' ∧ t.head? = some '*' then some ([], t.tail) else none

theorem lastOpen_eq_none : lastOpen t = none ↔ Without '/' '*' t := by
  induction t with
  | nil => exact ⟨fun _ => without_nil _ _, fun _ => rfl⟩
  | cons c t ih =>
    rw [lastOpen, without_cons, ← ih]
    cases lastOpen t with
    | some s => simp
    | none => simp

theorem lastOpen_eq_some {t a b : Text} (h : lastOpen t = some (a, b)) :
    t = a ++ '/' :: '*' :: b ∧ Without '/' '*' b := by
  induction t generalizing a with
  | nil => cases h
  | cons c t ih =>
    rw [lastOpen] at h
    cases hlast : lastOpen t with
    | some s =>
      rw [hlast] at h
      obtain ⟨rfl, rfl⟩ := Prod.mk.inj (Option.some.inj h)
      obtain ⟨ht, hb⟩ := ih hlast
      exact ⟨congrArg (c :: ·) ht, hb⟩
    | none =>
      rw [hlast] at h
      simp only at h
      split_ifs at h with hopen
      obtain ⟨rfl, rfl⟩ := Prod.mk.inj (Option.some.inj h)
      obtain ⟨t, rfl⟩ := List.head?_eq_some_iff.1 hopen.2
      rw [hopen.1]
      exact ⟨rfl, (without_cons.1 (lastOpen_eq_none.1 hlast)).2⟩

/-- What is left of a part of a text. -/
def Segment.left : Segment → Text
  | .code c => [c]
  | .comment body =>
    match lastOpen body with
    | some (a, b) => '/' :: '*' :: (a ++ b.filter isLineBreak)
    | none => body.filter isLineBreak

/-- Up to its last `/*` nothing of a comment is found. -/
theorem not_without_of_suffix {a b s body' rest' : Text} {c : Char} (rest : Text)
    (hbody : Without '*' '/' (a ++ '/' :: '*' :: b)) (hs : c :: s <:+ '/' :: '*' :: a)
    (h : openComment (c :: s ++ '/' :: '*' :: (b ++ '*' :: '/' :: rest)) = some (body', rest')) :
    ¬ Without '/' '*' body' := by
  obtain ⟨heq, hclose⟩ := openComment_eq_some.1 h
  obtain ⟨-, htail⟩ := List.cons.inj heq
  cases s with
  | nil => cases htail
  | cons d s =>
    obtain ⟨-, htail⟩ := List.cons.inj htail
    have hsuffix : s <:+ a := by
      refine List.suffix_of_suffix_length_le
        (((List.suffix_cons d s).trans (List.suffix_cons c _)).trans hs)
        ((List.suffix_cons '*' a).trans (List.suffix_cons '/' _)) ?_
      have hlen := hs.length_le
      simp only [List.length_cons] at hlen
      omega
    -- both readings end at the first `*/`
    have hwithout : Without '*' '/' (s ++ '/' :: '*' :: b) := by
      obtain ⟨u, rfl⟩ := hsuffix
      refine fun hin => hbody (hin.trans ⟨u, [], ?_⟩)
      simp
    have hsplit : splitClose (body' ++ '*' :: '/' :: rest') = some (s ++ '/' :: '*' :: b, rest) :=
      splitClose_eq_some.2 ⟨by rw [← htail]; simp, hwithout⟩
    rw [splitClose_eq_some.2 ⟨rfl, hclose⟩] at hsplit
    obtain ⟨rfl, -⟩ := Prod.mk.inj (Option.some.inj hsplit)
    exact fun hno => hno ⟨s, b, by simp⟩

/-! ## The whole text -/

theorem Without.of_infix {a b : Char} {u v : Text} (h : Without a b v) (huv : u <:+: v) :
    Without a b u := fun hu => h (hu.trans huv)

/-- **What is left of a comment**: all of it up to its last `/*`, if it has
a second one. -/
theorem leftFrom_segment (h : openComment t = some (body, rest)) {n : ℕ} (hn : t.length ≤ n)
    (prev : Option Char) : ∃ n' prev', rest.length ≤ n' ∧
      leftFrom n prev t = (Segment.comment body).left ++ leftFrom n' prev' rest := by
  obtain ⟨rfl, hclose⟩ := openComment_eq_some.1 h
  simp only [List.length_cons, List.length_append] at hn
  cases hlast : lastOpen body with
  | none =>
    obtain ⟨n, rfl⟩ : ∃ k, n = k + 1 := ⟨n - 1, by omega⟩
    obtain ⟨prev', hleft⟩ := leftFrom_comment (n := n) prev h (lastOpen_eq_none.1 hlast)
    refine ⟨n, prev', by omega, ?_⟩
    rw [hleft, Segment.left, hlast]
  | some s =>
    obtain ⟨a, b⟩ := s
    obtain ⟨rfl, hb⟩ := lastOpen_eq_some hlast
    simp only [List.length_cons, List.length_append] at hn
    obtain ⟨n, rfl⟩ : ∃ k, n = k + 1 + ('/' :: '*' :: a).length :=
      ⟨n - 1 - ('/' :: '*' :: a).length, by simp only [List.length_cons]; omega⟩
    have hinner : openComment ('/' :: '*' :: (b ++ '*' :: '/' :: rest)) = some (b, rest) :=
      openComment_eq_some.2 ⟨rfl, hclose.of_infix ⟨a ++ ['/', '*'], [], by simp⟩⟩
    -- up to the last `/*` the characters stay, and there the pattern matches
    obtain ⟨prev₁, hcodes⟩ := leftFrom_codes (n := n + 1)
      (fun c s hs body' rest' => not_without_of_suffix rest hclose hs) prev
    obtain ⟨prev₂, hcomment⟩ := leftFrom_comment (n := n) prev₁ hinner hb
    refine ⟨n, prev₂, by simp only [List.length_cons] at hn; omega, ?_⟩
    have ht : '/' :: '*' :: (a ++ '/' :: '*' :: b ++ '*' :: '/' :: rest) =
        '/' :: '*' :: a ++ '/' :: '*' :: (b ++ '*' :: '/' :: rest) := by simp
    rw [ht, hcodes, hcomment, Segment.left, hlast]
    simp

/-- **What is left of a text** is what is left of its parts. The induction
is on the length of the text: a comment and a character make it shorter. -/
theorem leftFrom_eq (t : Text) : ∀ (n n' : ℕ) (prev : Option Char), t.length ≤ n → t.length ≤ n' →
    leftFrom n prev t = (segmentsFrom n' t).flatMap Segment.left := by
  induction hk : t.length using Nat.strong_induction_on generalizing t with
  | _ k ih =>
    intro n n' prev hn hn'
    cases t with
    | nil => cases n <;> cases n' <;> rfl
    | cons c t =>
      rw [List.length_cons] at hk
      obtain ⟨n', rfl⟩ : ∃ j, n' = j + 1 := ⟨n' - 1, by omega⟩
      rw [segmentsFrom]
      cases hopen : openComment (c :: t) with
      | some s =>
        obtain ⟨body, rest⟩ := s
        obtain ⟨m, prev', hm, hleft⟩ :=
          leftFrom_segment hopen (n := n) (by rw [List.length_cons]; omega) prev
        have hlen : (c :: t).length = _ := congrArg List.length (openComment_eq_some.1 hopen).1
        simp only [List.length_cons, List.length_append] at hlen
        rw [hleft, ih rest.length (by omega) rest rfl m n' prev' hm (by omega), List.flatMap_cons]
      | none =>
        obtain ⟨n, rfl⟩ : ∃ j, n = j + 1 := ⟨n - 1, by omega⟩
        rw [leftFrom_code prev (by rw [hopen]; exact nofun),
          ih t.length (by omega) t rfl n n' (some c) (by omega) (by omega), List.flatMap_cons]
        rfl

theorem target_replaceSlashStarComment (t : Text) :
    target (replaceSlashStarComment t) = (segments t).flatMap Segment.left :=
  leftFrom_eq t _ _ none (Nat.le_refl _) (Nat.le_refl _)

theorem Segment.length_stripped_lt (h : ['/', '*'] <:+: body) :
    (Segment.comment body).stripped.length < (Segment.comment body).left.length := by
  cases hlast : lastOpen body with
  | none => exact absurd h (lastOpen_eq_none.1 hlast)
  | some s =>
    obtain ⟨a, b⟩ := s
    obtain ⟨rfl, -⟩ := lastOpen_eq_some hlast
    have hle := List.length_filter_le isLineBreak a
    simp [Segment.stripped, Segment.left, hlast, isLineBreak] at hle ⊢
    omega

theorem Segment.left_comment (h : ¬ ['/', '*'] <:+: body) :
    (Segment.comment body).left = (Segment.comment body).stripped := by
  rw [Segment.left, lastOpen_eq_none.2 h]
  rfl

theorem Segment.length_stripped_le (s : Segment) : s.stripped.length ≤ s.left.length := by
  cases s with
  | code c => exact Nat.le_refl _
  | comment body =>
    by_cases h : ['/', '*'] <:+: body
    · exact Nat.le_of_lt (length_stripped_lt h)
    · rw [left_comment h]

/-- **When `replace_slash_star_comment` takes out the block comments**:
exactly for the texts in which no block comment has a second `/*`. -/
theorem replaceSlashStarComment_iff (t : Text) :
    target (replaceSlashStarComment t) = (segments t).flatMap Segment.stripped ↔
      ∀ body, Segment.comment body ∈ segments t → ¬ ['/', '*'] <:+: body := by
  rw [target_replaceSlashStarComment]
  constructor
  · intro heq body hmem hopen
    -- something of this comment stays, and no less of the other parts
    have hlt : ((segments t).map fun s => s.stripped.length).sum <
        ((segments t).map fun s => s.left.length).sum :=
      List.sum_lt_sum _ _ (fun s _ => s.length_stripped_le)
        ⟨_, hmem, Segment.length_stripped_lt hopen⟩
    rw [← List.length_flatMap, ← List.length_flatMap, heq] at hlt
    exact Nat.lt_irrefl _ hlt
  · intro h
    refine List.flatMap_congr fun s hs => ?_
    cases s with
    | code c => rfl
    | comment body => exact Segment.left_comment (h body hs)

/-- A comment with a second `/*` in it: its first part stays. -/
theorem replaceSlashStarComment_nested :
    segments "x/* a /* b */y".toList =
      [.code 'x', .comment " a /* b ".toList, .code 'y'] ∧
    (segments "x/* a /* b */y".toList).flatMap Segment.stripped = "xy".toList ∧
    target (replaceSlashStarComment "x/* a /* b */y".toList) = "x/* a y".toList := by
  decide

end Calltree

end CppEtudes
