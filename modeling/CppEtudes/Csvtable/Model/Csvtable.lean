import CppEtudes.Calltree.Model.Format

/-!
# `csvtable`

The script reads lines, parses each to a row of cells or to a separator,
pads the cells of a column to one width, brings the separators in order
and prints the table. A Perl string read from a file holds bytes; here a
byte is the character of that number, and `@bytes` is the string itself.
A loop that may not end runs on `fuel`, and without a result when that is
used up.
-/

namespace CppEtudes

namespace Csvtable

open Calltree (Text isSpace)

/-! ## UTF-8 -/

/-- `@UTF8_TABLE`. -/
def utf8Table : List ℤ :=
  List.replicate 128 1 ++ List.replicate 64 (-1) ++ List.replicate 32 2 ++ List.replicate 16 3 ++
    List.replicate 8 4 ++ List.replicate 8 (-5)

/-- The entry of a byte; a number outside the table has `undef`, which
counts as `0`. -/
def byteSize (b : Char) : ℤ := utf8Table.getD b.toNat 0

/-- `$UTF8_TABLE[$bytes[$k]]`. Behind the end `$bytes[$k]` is `undef`, and
the entry is that of `0`. -/
def sizeAt (bytes : Text) (k : ℕ) : ℤ := (bytes[k]?.map byteSize).getD 1

/-- The messages `validate_utf8` dies with: what they show is the size,
the place and the bytes up to it. -/
inductive Utf8Error
  | invalidStart (charSize : ℤ) (i : ℕ) (bytes : Text)
  | invalidContinuation (charSize : ℤ) (i : ℕ) (bytes : Text)
  deriving DecidableEq

/-- One round of `validate_utf8`: the size of the character at `i`. -/
def charSizeAt (bytes : Text) (i : ℕ) : Except Utf8Error ℕ :=
  if sizeAt bytes i ≤ 0 then .error (.invalidStart (sizeAt bytes i) i (bytes.take (i + 1)))
  else
    match (List.range' (i + 1) ((sizeAt bytes i).toNat - 1)).find?
        fun k => sizeAt bytes k != -1 with
    | some k => .error (.invalidContinuation (sizeAt bytes i) k (bytes.take (k + 1)))
    | none => .ok (sizeAt bytes i).toNat

/-- The rounds from `i` on. A round takes a byte at least. -/
def charIndexFrom (bytes : Text) : ℕ → ℕ → Except Utf8Error (List ℕ)
  | 0, _ => .ok []
  | rounds + 1, i =>
    if i < bytes.length then do
      let charSize ← charSizeAt bytes i
      let rest ← charIndexFrom bytes rounds (i + charSize)
      return i :: rest
    else .ok []

/-- **`validate_utf8`**: `@char_index`. -/
def validateUtf8 (s : Text) : Except Utf8Error (List ℕ) := charIndexFrom s s.length 0

/-- **`utf8_length`**. -/
def utf8Length (s : Text) : Except Utf8Error ℕ := (validateUtf8 s).map List.length

/-- `$l->[$i]` as a number; a negative index counts from the end. -/
def element (l : List ℕ) (i : ℤ) : ℕ :=
  (if 0 ≤ i then l[i.toNat]?
    else if 0 ≤ l.length + i then l[(l.length + i).toNat]?
    else none).getD 0

/-- **`utf8_substr`**. -/
def utf8Substr (s : Text) (off len : ℤ) : Except Utf8Error Text := do
  let charIndex ← validateUtf8 s
  let off := if off < 0 then off + charIndex.length else off
  let start := element charIndex off
  if off + len < charIndex.length then
    return (s.drop start).take (element charIndex (off + len - 1) + 1 - start)
  else return s.drop start

/-! ## Reading -/

/-- The lines that `<>` reads, each with the newline it ends in. -/
def readLines (input : Text) : List Text :=
  (input.splitOn '\n').dropLast.map (· ++ ['\n']) ++
    [(input.splitOn '\n').getLastD []].filter fun line => !line.isEmpty

/-- `s/^\s*(\S.*\S|\S+)\s*$/$1/g`, of a line that is not blank. -/
def trim (line : Text) : Text := (line.dropWhile isSpace).rdropWhile isSpace

abbrev Row := List Text

/-- `split /\s*,\s*/`: blanks around a comma belong to it, and empty cells
at the end are left out. -/
def splitCells (line : Text) : Row := ((line.splitOn ',').map trim).rdropWhile List.isEmpty

/-- A line's element of `@data`; a blank line is a separator, `undef`. -/
def parseLine (line : Text) : Option Row :=
  if line.all isSpace then none else some (splitCells (trim line))

/-- `@data` after the loop. -/
def parse (input : Text) : List (Option Row) := (readLines input).map parseLine

/-! ## Columns -/

/-- `$column_num`. -/
def columnNum (data : List (Option Row)) : ℕ := (data.reduceOption.map List.length).foldl max 0

/-- A row with `$column_num` cells. -/
def padRow (columnNum : ℕ) (row : Row) : Row := (row ++ List.replicate columnNum []).take columnNum

/-- `@data` with rows of one length. -/
def padRows (data : List (Option Row)) : List (Option Row) :=
  data.map (Option.map (padRow (columnNum data)))

/-- `$row->[$col]`. -/
def cell (row : Row) (col : ℕ) : Text := row.getD col []

/-- `$max_len[$col]`. -/
def maxLen (data : List (Option Row)) (col : ℕ) : Except Utf8Error ℕ := do
  let lens ← data.reduceOption.mapM fun row => utf8Length (cell row col)
  return lens.foldl max 0

/-- A cell padded to its column. -/
def padCell (maxLen : ℕ) (text : Text) : Except Utf8Error Text :=
  utf8Substr (' ' :: text ++ List.replicate (maxLen + 1) ' ') 0 (maxLen + 2)

def formatRow (maxLens : List ℕ) (row : Row) : Except Utf8Error Row :=
  (List.range maxLens.length).mapM fun col => padCell (maxLens.getD col 0) (cell row col)

/-- `@max_len`, and `@data` with its cells padded. -/
def format (data : List (Option Row)) : Except Utf8Error (List ℕ × List (Option Row)) := do
  let rows := padRows data
  let maxLens ← (List.range (columnNum data)).mapM (maxLen rows)
  let formatted ← rows.mapM fun row => row.mapM (formatRow maxLens)
  return (maxLens, formatted)

/-! ## Separators -/

section Separators

variable {α : Type}

/-- **`remove_leading_undef`**; `shift` of an empty array gives `undef`. -/
def removeLeadingUndef : ℕ → List (Option α) → Option (List (Option α))
  | 0, _ => none
  | fuel + 1, array =>
    match array with
    | some elem :: rest => some (some elem :: rest)
    | none :: rest => removeLeadingUndef fuel rest
    | [] => removeLeadingUndef fuel []

/-- **`remove_trailing_undef`**. -/
def removeTrailingUndef : ℕ → List (Option α) → Option (List (Option α))
  | 0, _ => none
  | fuel + 1, array =>
    match array.getLast? with
    | some (some elem) => some (array.dropLast ++ [some elem])
    | _ => removeTrailingUndef fuel array.dropLast

/-- A round of `squeeze_undef`, on `@array` and `$k`. -/
def squeezeRound (s : List (Option α) × ℕ) (i : ℕ) : List (Option α) × ℕ :=
  match s.1.getD i none with
  | some elem => (s.1.set (s.2 + 1) (some elem), s.2 + 1)
  | none =>
    match s.1.getD s.2 none with
    | some _ => (s.1.set (s.2 + 1) none, s.2 + 1)
    | none => s

/-- **`squeeze_undef`**. -/
def squeezeUndef (array : List (Option α)) : List (Option α) :=
  let s := (List.range' 1 (array.length - 1)).foldl squeezeRound (array, 0)
  (List.range (s.2 + 1)).map fun j => s.1.getD j none

/-- The normalisation of `@data`: `$hdr` and `@body`. -/
def normalise (fuel : ℕ) (data : List (Option α)) : Option (Option α × List (Option α)) := do
  let data ← removeLeadingUndef fuel data
  let body ← removeLeadingUndef fuel data.tail
  let body ← removeTrailingUndef fuel body
  return (data.headD none, squeezeUndef body)

end Separators

/-! ## Printing -/

/-- `$thin_hrule` and `$thick_hrule`. -/
def hrule (c : Char) (maxLens : List ℕ) : Text :=
  '+' :: ['+'].intercalate (maxLens.map fun m => List.replicate (m + 2) c) ++ ['+']

/-- `print_data`. -/
def printData (row : Row) : Text := '|' :: ['|'].intercalate row ++ ['|']

/-- The lines that are printed, each before its newline. -/
def printTable (maxLens : List ℕ) (hdr : Option Row) (body : List (Option Row)) : List Text :=
  [hrule '=' maxLens, printData (hdr.getD []), hrule '=' maxLens] ++
    body.map (fun row => (row.map printData).getD (hrule '-' maxLens)) ++ [hrule '-' maxLens]

/-- **The script**: the lines it prints, or the message it dies with. -/
def csvtable (fuel : ℕ) (input : Text) : Option (Except Utf8Error (List Text)) :=
  match format (parse input) with
  | .error e => some (.error e)
  | .ok (maxLens, data) => (normalise fuel data).map fun r => .ok (printTable maxLens r.1 r.2)

end Csvtable

end CppEtudes
