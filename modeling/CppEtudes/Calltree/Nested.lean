import CppEtudes.Calltree.Model.Nested
import CppEtudes.Common.Brackets
import CppEtudes.Common.Words

/-!
# Nested pairs

The pattern of `gen_nested_pair_re` as a recursive language. A text of
its group is balanced and has a bracket; a balanced text has no brackets
or is a row of texts of the group, by the first pair it has.
-/

namespace CppEtudes

namespace Calltree

open Regex Brackets

/-- The group of the pattern. -/
def nestedGroup (l r : Char) (p : Char → Bool) : Regex :=
  oneOf [cat [many (.set p), chr l, Regex.call.many, chr r, many (.set p)],
    cat [many (.set p), chr l, many (.set p), chr r, many (.set p)]]

/-- The language of the group. -/
def Nested (l r : Char) (p : Char → Bool) (w : Text) : Prop :=
  Word (some (nestedGroup l r p)) (nestedGroup l r p) w

variable {l r : Char} {p : Char → Bool} {w : Text}

section Texts

variable (hp : ∀ c, p c = true ↔ c ≠ l ∧ c ≠ r)

include hp

theorem word_others {g : Option Regex} : Word g (many (.set p)) w ↔ Free l r w := by
  rw [word_many_set]
  exact forall₂_congr fun c _ => hp c

/-- A pair, with other characters around it. -/
theorem word_pair {g : Option Regex} {inner : Regex} :
    Word g (cat [many (.set p), chr l, inner, chr r, many (.set p)]) w ↔
      ∃ o m o', w = o ++ l :: (m ++ r :: o') ∧ Free l r o ∧ Word g inner m ∧ Free l r o' := by
  simp only [word_cat_cons, word_cat_nil, word_others hp, word_chr]
  constructor
  · rintro ⟨o, -, ho, ⟨-, -, rfl, ⟨m, -, hm, ⟨-, -, rfl, ⟨o', -, ho', rfl, rfl⟩, rfl⟩, rfl⟩, rfl⟩,
      rfl⟩
    exact ⟨o, m, o', by simp, ho, hm, ho'⟩
  · rintro ⟨o, m, o', rfl, ho, hm, ho'⟩
    exact ⟨o, _, ho, ⟨[l], _, rfl, ⟨m, _, hm, ⟨[r], _, rfl, ⟨o', [], ho', rfl, rfl⟩, rfl⟩, rfl⟩, rfl⟩,
      by simp⟩

/-- **A text of the group** is a pair with other characters around it, and
in it other characters or a row of texts of the group. -/
theorem nested_iff : Nested l r p w ↔
    ∃ o m o', w = o ++ l :: (m ++ r :: o') ∧ Free l r o ∧ Free l r o' ∧
      (Free l r m ∨ ∃ us : List Text, (∀ u ∈ us, Nested l r p u) ∧ m = us.flatten) := by
  have hrow : ∀ m, Word (some (nestedGroup l r p)) Regex.call.many m ↔
      ∃ us : List Text, (∀ u ∈ us, Nested l r p u) ∧ m = us.flatten := by
    intro m
    simp only [word_many, word_call]
    rfl
  have hcases : Nested l r p w ↔
      Word (some (nestedGroup l r p))
        (cat [many (.set p), chr l, Regex.call.many, chr r, many (.set p)]) w ∨
      Word (some (nestedGroup l r p))
        (cat [many (.set p), chr l, many (.set p), chr r, many (.set p)]) w := word_alt
  rw [hcases, word_pair hp, word_pair hp]
  simp only [hrow, word_others hp]
  constructor
  · rintro (⟨o, m, o', hw, ho, hm, ho'⟩ | ⟨o, m, o', hw, ho, hm, ho'⟩)
    · exact ⟨o, m, o', hw, ho, ho', .inr hm⟩
    · exact ⟨o, m, o', hw, ho, ho', .inl hm⟩
  · rintro ⟨o, m, o', hw, ho, ho', hm | hm⟩
    · exact .inr ⟨o, m, o', hw, ho, hm, ho'⟩
    · exact .inl ⟨o, m, o', hw, ho, hm, ho'⟩

/-- **A text of the whole pattern** is a pair, and in it other characters,
a row of texts of the group and other characters. -/
theorem word_genNestedPairRe : Word none (genNestedPairRe (chr l) (chr r) (many (.set p))) w ↔
    ∃ (o : Text) (us : List Text) (o' : Text), w = l :: (o ++ us.flatten ++ o' ++ [r]) ∧
      Free l r o ∧ Free l r o' ∧ ∀ u ∈ us, Nested l r p u := by
  have hrow : ∀ m, Word none (Regex.recur (nestedGroup l r p)).many m ↔
      ∃ us : List Text, (∀ u ∈ us, Nested l r p u) ∧ m = us.flatten := by
    intro m
    simp only [word_many, word_recur]
    rfl
  have hpattern : genNestedPairRe (chr l) (chr r) (many (.set p)) =
      cat [chr l, many (.set p), (Regex.recur (nestedGroup l r p)).many, many (.set p), chr r] := rfl
  rw [hpattern]
  simp only [word_cat_cons, word_cat_nil, word_others hp, word_chr, hrow]
  constructor
  · rintro ⟨-, -, rfl, ⟨o, -, ho, ⟨-, -, ⟨us, hus, rfl⟩, ⟨o', -, ho', ⟨-, -, rfl, rfl, rfl⟩, rfl⟩,
      rfl⟩, rfl⟩, rfl⟩
    exact ⟨o, us, o', by simp, ho, ho', hus⟩
  · rintro ⟨o, us, o', rfl, ho, ho', hus⟩
    exact ⟨[l], _, rfl, ⟨o, _, ho, ⟨_, _, ⟨us, hus, rfl⟩, ⟨o', _, ho', ⟨[r], [], rfl, rfl, rfl⟩, rfl⟩,
      rfl⟩, rfl⟩, by simp⟩

variable (h : l ≠ r)

include h

/-- Texts of the group are balanced: the induction is on their length, the
texts in the pair being shorter. -/
theorem Nested.balanced (hw : Nested l r p w) : Balanced l r w := by
  induction hn : w.length using Nat.strong_induction_on generalizing w with
  | _ n ih =>
    obtain ⟨o, m, o', rfl, ho, ho', hm⟩ := (nested_iff hp).1 hw
    have hm : Balanced l r m := by
      rcases hm with hm | ⟨us, hus, rfl⟩
      · exact hm.balanced
      · refine Balanced.flatten fun u hu => ih u.length ?_ (hus u hu) rfl
        have hle := (List.sublist_flatten_of_mem hu).length_le
        simp only [List.length_append, List.length_cons] at hn
        omega
    have hpair := ho.balanced.append ((hm.wrap h).append ho'.balanced)
    simpa using hpair

/-- A balanced text has no brackets or is a row of texts of the group. -/
theorem exists_row_of_balanced (hw : Balanced l r w) : Free l r w ∨
    ∃ us : List Text, (∀ u ∈ us, Nested l r p u) ∧ w = us.flatten := by
  induction hn : w.length using Nat.strong_induction_on generalizing w with
  | _ n ih =>
    rcases hw.cases h with hfree | ⟨o, m, v, rfl, ho, hm, hv⟩
    · exact .inl hfree
    simp only [List.length_append, List.length_cons] at hn
    have hm := ih m.length (by omega) hm rfl
    -- what is behind the first pair belongs to its text or has further ones
    rcases ih v.length (by omega) hv rfl with hv | ⟨us, hus, rfl⟩
    · have hone : Nested l r p (o ++ l :: (m ++ r :: v)) :=
        (nested_iff hp).2 ⟨o, m, v, rfl, ho, hv, hm⟩
      exact .inr ⟨[o ++ l :: (m ++ r :: v)], by simpa using hone, by simp⟩
    · refine .inr ⟨(o ++ l :: (m ++ [r])) :: us, fun u hu => ?_, by simp⟩
      rcases List.mem_cons.1 hu with rfl | hu
      · exact (nested_iff hp).2 ⟨o, m, [], rfl, ho, free_nil, hm⟩
      · exact hus u hu

end Texts

/-- **The pattern of `gen_nested_pair_re` matches one whole pair**: for two
brackets and the class of all other characters, a text of the pattern is
a balanced text that begins with the opening bracket and ends with the
closing one that pairs with it. -/
theorem word_genNestedPairRe_iff (h : l ≠ r) (hp : ∀ c, p c = true ↔ c ≠ l ∧ c ≠ r) (w : Text) :
    Word none (genNestedPairRe (chr l) (chr r) (many (.set p))) w ↔
      Balanced l r w ∧ w.head? = some l ∧ Pairs l r w 0 (w.length - 1) := by
  rw [word_genNestedPairRe hp]
  constructor
  · rintro ⟨o, us, o', rfl, ho, ho', hus⟩
    have hm : Balanced l r (o ++ us.flatten ++ o') :=
      (ho.balanced.append (Balanced.flatten fun u hu => (hus u hu).balanced hp h)).append ho'.balanced
    refine ⟨hm.wrap h, rfl, [], _, [], rfl, rfl, ?_, hm⟩
    simp only [List.length_cons, List.length_append, List.length_nil]
    omega
  · rintro ⟨-, -, a, m, b, rfl, ha, hb, hm⟩
    obtain rfl := List.length_eq_zero_iff.1 ha.symm
    have hnil : b = [] := by
      simp only [List.nil_append, List.length_cons, List.length_append, List.length_nil] at hb
      exact List.length_eq_zero_iff.1 (by omega)
    subst hnil
    rcases exists_row_of_balanced hp h hm with hm | ⟨us, hus, rfl⟩
    · exact ⟨m, [], [], by simp, hm, free_nil, fun u hu => nomatch hu⟩
    · exact ⟨[], us, [], by simp, free_nil, free_nil, hus⟩

theorem word_genNestedPairRe_iff_parentheses : Word none reNestedParentheses "(a(b))".toList := by
  have hp : ∀ c : Char, (!"()".toList.contains c) = true ↔ c ≠ '(' ∧ c ≠ ')' := by simp
  have ha : Balanced '(' ')' ['a'] := Free.balanced (by simp [Free])
  have hb : Balanced '(' ')' ['b'] := Free.balanced (by simp [Free])
  have hm := ha.append (hb.wrap (by decide))
  exact (word_genNestedPairRe_iff (by decide) hp _).2
    ⟨hm.wrap (by decide), rfl, [], ['a', '(', 'b', ')'], [], rfl, rfl, rfl, hm⟩

end Calltree

end CppEtudes
