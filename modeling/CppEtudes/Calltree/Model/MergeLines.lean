import CppEtudes.Calltree.Model.Name

/-!
# `merge_lines`

The lines that `ag` prints, put together to the matches they belong to.
With `--multiline-break` a line that is no match line stands between two
matches; without it a match ends where the next line is of another file
or is not the next one. Line numbers are naturals.
-/

namespace CppEtudes

namespace Calltree

/-- What `/^([^:]+):(\d+):(.*)$/` captures. -/
structure Parts where
  file : Text
  lineno : ℕ
  text : Text
  deriving DecidableEq

/-- The number a run of digits is. -/
def number (digits : Text) : ℕ := digits.foldl (fun n c => 10 * n + (c.toNat - '0'.toNat)) 0

/-- `(.*)$`: one line, without the newline it may end in. -/
def lineText (rest : Text) : Option Text :=
  let line := rest.takeWhile (· != '\n')
  if rest = line ∨ rest = line ++ ['\n'] then some line else none

/-- The match of a line with `/^([^:]+):(\d+):(.*)$/`. -/
def threeParts (line : Text) : Option Parts :=
  let file := line.takeWhile (· != ':')
  match line.drop file.length with
  | ':' :: rest =>
    let digits := rest.takeWhile Char.isDigit
    match rest.drop digits.length with
    | ':' :: rest =>
      if file = [] ∨ digits = [] then none
      else (lineText rest).map fun text => ⟨file, number digits, text⟩
    | _ => none
  | _ => none

/-- A quadruple of the result. -/
structure Merged where
  file : Text
  startLineno : ℕ
  endLineno : ℕ
  body : Text
  deriving DecidableEq

/-- The line number of an element of `@three_parts`. -/
def linenoOf (parts : Option Parts) : ℕ := (parts.map Parts.lineno).getD 0

/-- The loop of `merge_lines_multiline_break_enabled`: `prev` is the match
that is open, `before` the element before the next one. -/
def breakEnabledLoop (prev before : Option Parts) : List (Option Parts) → List Merged
  | [] =>
    match prev with
    | some p => [⟨p.file, p.lineno, linenoOf before, p.text⟩]
    | none => []
  | none :: rest =>
    match prev with
    | some p => ⟨p.file, p.lineno, linenoOf before, p.text⟩ :: breakEnabledLoop none none rest
    | none => breakEnabledLoop none none rest
  | some l :: rest =>
    match prev with
    | some p => breakEnabledLoop (some { p with text := p.text ++ l.text }) (some l) rest
    | none => breakEnabledLoop (some l) (some l) rest

def mergeLinesMultilineBreakEnabled (lines : List Text) : List Merged :=
  breakEnabledLoop none none (lines.map threeParts)

/-- The loop of `merge_lines_multiline_break_disabled`: `adjacent` is
`$prev_lineno_adjacent`, `before` the element before the next one. -/
def breakDisabledLoop (prev : Parts) (adjacent : ℕ) (before : Parts) : List Parts → List Merged
  | [] => [⟨prev.file, prev.lineno, before.lineno, prev.text⟩]
  | l :: rest =>
    if l.file = prev.file ∧ adjacent + 1 = l.lineno then
      breakDisabledLoop { prev with text := prev.text ++ l.text } (adjacent + 1) l rest
    else
      -- the source reads the line number at `$i`, not at `$i - 1`
      ⟨prev.file, prev.lineno, l.lineno, prev.text⟩ :: breakDisabledLoop l l.lineno l rest

/-- `merge_lines_multiline_break_disabled`. A line that does not match
leaves in `$1`, `$2` and `$3` what they held before, `outer`; no lines at
all are an error. -/
def mergeLinesMultilineBreakDisabled (outer : Parts) (lines : List Text) : Option (List Merged) :=
  match lines.map fun line => (threeParts line).getD outer with
  | [] => none
  | first :: rest => some (breakDisabledLoop first first.lineno first rest)

def mergeLines (multilineBreakEnabled : Bool) (outer : Parts) (lines : List Text) :
    Option (List Merged) :=
  if multilineBreakEnabled then some (mergeLinesMultilineBreakEnabled lines)
  else mergeLinesMultilineBreakDisabled outer lines

end Calltree

end CppEtudes
