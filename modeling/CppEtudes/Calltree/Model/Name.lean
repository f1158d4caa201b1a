import Mathlib.Data.List.DropRight
import Mathlib.Data.List.Infix
import Mathlib.Data.List.Sort
import Mathlib.Tactic.Common

/-!
# Names and scores

The name functions of `calltree.pl`, and the scores by which a callee's
prefix picks among the functions of one name. Strings are lists of
characters; `\w` and `lc` are those of byte strings, so ASCII.
-/

namespace CppEtudes

namespace Calltree

/-- A Perl string. -/
abbrev Text := List Char

/-- `\w`. -/
def isWord (c : Char) : Bool := c.isAlphanum || c == '_'

/-- `simple_name`: the word a name ends in, with a `~` before it; `$`
also matches before a final newline. A name that ends in no word is left
as it is, blanks apart. -/
def simpleName (name : Text) : Text :=
  let s := name.filter (· != ' ')
  let t := if s.getLast? = some '\n' then s.dropLast else s
  let word := t.rtakeWhile isWord
  if word = [] then s
  else if (t.rdropWhile isWord).getLast? = some '~' then '~' :: word
  else word

/-- `is_pure_name`: lower-case letters only. -/
def isPureName (name : Text) : Bool := name.all fun c => 'a' ≤ c && c ≤ 'z'

/-! ## Scores -/

def lc (s : Text) : Text := s.map Char.toLower

/-- The cells of a row of the `lev_dist` table behind the first: `left`
is the cell before, the row above is given from the cell above that one
on. -/
def levRow (ci : Char) : Text → List ℕ → ℕ → List ℕ
  | cj :: b, diag :: up :: above, left =>
    let d := if ci = cj then diag else 1 + min (min up left) diag
    d :: levRow ci b (up :: above) d
  | _, _, _ => []

/-- `lev_dist`. -/
def levDist (a b : Text) : ℕ :=
  if a = [] then b.length
  else if b = [] then a.length
  else
    let (_, row) := (lc a).foldl
      (fun (d : ℕ × List ℕ) ci => (d.1 + 1, (d.1 + 1) :: levRow ci (lc b) d.2 (d.1 + 1)))
      (0, List.range (b.length + 1))
    row.getLastD 0

/-- The guard of the three scores: `0` unless both strings are defined
and not empty. -/
def scoreOf (f : Text → Text → ℤ) : Option Text → Option Text → ℤ
  | some a, some b => if a = [] ∨ b = [] then 0 else f a b
  | _, _ => 0

def levDistScore : Option Text → Option Text → ℤ := scoreOf fun a b => 1000 - levDist a b

def substrScore : Option Text → Option Text → ℤ :=
  scoreOf fun a b => if lc a <:+: lc b then 1000 else 0

def isVowel (c : Char) : Bool := c ∈ ['a', 'e', 'i', 'o', 'u']

/-- `abbr_score`: the capitals of `b`, or what is left of it without its
vowels, contain `a`. -/
def abbrScore : Option Text → Option Text → ℤ :=
  scoreOf fun a b =>
    let b0 := lc (b.filter fun c => 'A' ≤ c && c ≤ 'Z')
    let b1 := lc (b.filter fun c => !isVowel c)
    let score0 := if 1 < b0.length then substrScore (some (lc a)) (some b0) else 0
    let score1 := if 1 < b1.length then substrScore (some (lc a)) (some b1) else 0
    max score0 score1

/-- `default_score`: the best of three scores against the scope and the
file name, and at least `0`. -/
def defaultScore (pre scope filename : Option Text) : ℤ :=
  [abbrScore pre scope, substrScore pre scope, levDistScore pre scope,
    abbrScore pre filename, substrScore pre filename, levDistScore pre filename].foldr max 0

end Calltree

end CppEtudes
