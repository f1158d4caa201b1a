import CppEtudes.Calltree.Model.Preprocess

/-!
# Patterns for nested pairs

`gen_nested_pair_re`. The capture group is the one that `(?-1)` inside of
it refers to; blanks in the pattern are taken out by the source.
-/

namespace CppEtudes

namespace Calltree

open Regex

/-- `gen_nested_pair_re`. -/
def genNestedPairRe (l r others : Regex) : Regex :=
  let simpleCase := cat [others, l, others, r, others]
  let recursiveCase := cat [others, l, Regex.call.many, r, others]
  let nested := Regex.recur (oneOf [recursiveCase, simpleCase])
  cat [l, others, nested.many, others, r]

def reNestedParentheses : Regex := genNestedPairRe (chr '(') (chr ')') (reNotIn "()").many

def reNestedBraces : Regex := genNestedPairRe (chr '\x7b') (chr '\x7d') (reNotIn "\x7b\x7d").many

end Calltree

end CppEtudes
