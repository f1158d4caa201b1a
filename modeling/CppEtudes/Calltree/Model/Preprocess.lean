import CppEtudes.Common.Edit
import CppEtudes.Calltree.Model.Format

/-!
# Rewriting a source file

The patterns of `calltree.pl` and the substitutions that
`preprocess_one_cpp_file` chains, each as an edit of the text. Only `$1`
is read of the groups, so a group is marked where `$1` is not the whole
match. The `m` modifier of a substitution does not reach into a `qr//`
that was compiled without it.
-/

namespace CppEtudes

namespace Calltree

open Regex Edit

/-! ## Patterns -/

/-- `\s`. -/
def reWs : Regex := .set isSpace

/-- `\w`. -/
def reWord : Regex := .set isWord

/-- `.` without the `s` modifier. -/
def reDot : Regex := .set (· != '\n')

/-- `.` with the `s` modifier. -/
def reAny : Regex := .set fun _ => true

/-- `[…]`. -/
def reIn (s : String) : Regex := .set fun c => s.toList.contains c

/-- `[^…]`. -/
def reNotIn (s : String) : Regex := .set fun c => !s.toList.contains c

/-- `\b`. -/
def reBoundary : Regex := .assert fun prev rest => prev.any isWord != rest.head?.any isWord

/-- `^` without the `m` modifier. -/
def reBegin : Regex := .assert fun prev _ => prev.isNone

/-- `$` without the `m` modifier. -/
def reEnd : Regex := .assert fun _ rest => rest.isEmpty || rest == ['\n']

/-- `^` with the `m` modifier. -/
def reLineBegin : Regex := .assert fun prev _ => prev.all (· == '\n')

/-- `(?<=…)` for one character. -/
def reBehind (p : Char → Bool) : Regex := .assert fun prev _ => prev.any p

/-- `(?=…)` for one character. -/
def reBefore (p : Char → Bool) : Regex := .assert fun _ rest => rest.head?.any p

def reIdentifier : Regex :=
  cat [reBoundary, .set fun c => c.isAlpha || c == '_', reWord.many, reBoundary]

def reTwoColon : Regex := lit "::"

def reScopedIdentifier : Regex :=
  cat [(cat [reTwoColon, reWs.many]).opt,
    (cat [reIdentifier, reWs.many, reTwoColon, reWs.many]).many, (chr '~').opt, reIdentifier]

/-- `gen_re_list` with a lazy option behind it. -/
def genReListLazy (delimiter item : Regex) : Regex :=
  optLazy (cat [item, (cat [reWs.many, delimiter, reWs.many, item]).manyLazy])

def reGccAttribute : Regex :=
  let attr := cat [reIdentifier, (cat [reWs.many, chr '(', (reNotIn "()").plus, chr ')']).opt]
  cat [lit "__attribute__", reWs.many, chr '(', (chr '(').opt, reWs.many, attr,
    (cat [reWs.many, chr ',', reWs.many, attr, reWs.many]).many, reWs.many, (chr ')').opt, chr ')']

def reQuotedString : Regex :=
  cat [lit "\"", (cat [(reNotIn "\"").many, lit "\\\""]).many, (reNotIn "\"").many, lit "\""]

def reSingleChar : Regex := cat [lit "'", (chr '\\').opt, reDot, lit "'"]

def reSlashStarComment : Regex :=
  let run := oneOf [(chr '*').plus, (chr '/').plus]
  cat [lit "/*", (reNotIn "/*").many, (cat [run, (reNotIn "/*").plus]).many, run.opt, lit "*/"]

def reNestedCharsInSingleQuotes : Regex := cat [lit "'", reIn "\x7b\x7d<>()", lit "'"]

def reSingleLineComment : Regex := cat [chr '/', reIn "/\\", reDot.many]

def reLeftAngles : Regex := cat [chr '<', (reIn "<=").plus]

def reTemplateArgs1Layer : Regex :=
  let arg := cat [(lit "::").opt, (cat [reWord.plus, lit "::"]).many, reWord.plus, reWs.many]
  cat [chr '<', reWs.many, (cat [arg, chr ',', reWs.many]).many, arg, chr '>']

def reStdFunction : Regex :=
  cat [(cat [lit "::", reWs.many]).opt, reBoundary,
    (cat [reWord.plus, reWs.many, lit "::", reWs.many]).many, .cap reWord.plus, reWs.many, chr '<',
    reWs.many, reWord.plus, reWs.many, lit "()", reWs.many, chr '>']

def reCsvToken : Regex := genReListLazy (chr ',') reScopedIdentifier

/-- In `qr"…"` a doubled backslash is a literal one, so that `\\b` is a
backslash and a `b`, and the parentheses behind a backslash are a group. -/
def reNoexceptThrow : Regex :=
  let s := cat [chr '\\', (chr 's').many]
  cat [lit "\\b", oneOf [lit "noexcept", lit "throw"], lit "\\b",
    (cat [s, chr '\\', s, reCsvToken, s, chr '\\']).opt]

def reMacroDef : Regex :=
  let eol := [cat [chr '\n', (chr '\r').opt], cat [chr '\r', (chr '\n').opt]]
  cat [lit "#define", (cat [(reNotIn "\n\r").many, chr '\\', oneOf eol]).many,
    (cat [(reNotIn "\n\r").many, reNotIn "\n\r\\"]).opt, oneOf (eol ++ [reEnd])]

def reConditionalCompileBeginBranch : Regex :=
  cat [reBegin, (reIn "\t ").many, chr '#', oneOf [lit "if", lit "endif"], reDot.many, reEnd]

def reConditionalCompileMidBranch : Regex :=
  cat [reLineBegin, (reIn "\t ").many, lit "#elif", reAny.manyLazy,
    .ahead (cat [reLineBegin, (reIn "\t ").many, chr '#',
      oneOf [lit "elif", lit "else", lit "endif"]])]

def reConditionalCompileEndBranch : Regex :=
  cat [reLineBegin, (reIn "\t ").many, chr '#', oneOf [lit "elif", lit "else"], reAny.manyLazy,
    lit "#endif"]

def reArrowReturn : Regex :=
  cat [reBehind (· == ')'), reWs.many, lit "->", reWs.many, (lit "::").opt,
    (cat [reWs.many, reWord.plus, reWs.many, lit "::"]).many, reWs.many, reWord.plus, reWs.many,
    reBefore (· == '\x7b')]

/-- `$nested_parentheses`: an ignored function, with its arguments. -/
def reIgnoredFunctions : Regex :=
  let other := (reNotIn "()").many
  let nested := Regex.recur (oneOf [cat [other, chr '(', Regex.call.many, chr ')', other],
    cat [other, chr '(', other, chr ')', other]])
  cat [reBoundary, oneOf [lit "clEnumValN", cat [lit "cl::", reWord.plus]], reBoundary,
    (cat [chr '(', other, nested.many, other, chr ')']).opt]

def reKeywordsAndAttributes : Regex :=
  oneOf [cat [reBoundary, oneOf [lit "volatile", lit "const", lit "final", lit "override"],
    reBoundary], cat [lit "[[", reWord.plus, lit "]]"]]

def reNoexcept : Regex := cat [reBoundary, lit "noexcept", reBoundary]

def reMisc : Regex :=
  cat [reBehind (· == ')'), reWs.many, reWord.plus, reWs.many, reBefore (· == '\x7b')]

def reLt : Regex := cat [reWs.plus, chr '<', reWs.plus]

def reSeastar : Regex :=
  cat [reBegin, (reIn "\n ").many, lit "SEASTAR_CONCEPT", reDot.many, reEnd]

def reOuterWhitespaces : Regex := oneOf [cat [reBegin, reWs.plus], cat [reWs.plus, reEnd]]

def reInnerWhitespaces : Regex :=
  oneOf [cat [reBehind fun c => !isWord c, reWs.plus], cat [reWs.plus, reBefore fun c => !isWord c]]

/-! ## What is put in -/

/-- `with_blank_lines`. -/
def withBlankLines (var ls : Text) : Text :=
  var ++ ['\n'].intercalate ((splitLines ls).map fun _ => [])

/-- `empty_string_with_blank_lines`. -/
def emptyStringWithBlankLines (ls : Text) : Text := withBlankLines "\"\"".toList ls

/-- `xvar_with_blank_lines`. -/
def xvarWithBlankLines (ls : Text) : Text := withBlankLines "x".toList ls

/-- `blank_lines`: of a match only its line ends stay. -/
def blankLines : Match → Edit := keepOnly fun c => c == '\n' || c == '\r'

/-- A match becomes a fixed text. -/
def replaceByText (new : String) : Match → Edit := replaceBy fun _ => new.toList

/-! ## The steps -/

def replaceConditionalCompilationMidBranch : Text → Edit := gsub reConditionalCompileMidBranch blankLines

def replaceIgnoredFunctions : Text → Edit := gsub reIgnoredFunctions (replaceBy xvarWithBlankLines)

def replaceConditionalCompilationEndBranch : Text → Edit := gsub reConditionalCompileEndBranch blankLines

def replaceConditionalCompilationBeginBranch : Text → Edit :=
  gsub reConditionalCompileBeginBranch (replaceByText "")

def replaceSlashStarComment : Text → Edit := gsub reSlashStarComment blankLines

def replaceSingleChar : Text → Edit := gsub reSingleChar (replaceByText "'x'")

def replaceQuotedString : Text → Edit := gsub reQuotedString (replaceBy emptyStringWithBlankLines)

def replaceSingleLineComment : Text → Edit := gsub reSingleLineComment (replaceByText "")

def replaceNestedChar : Text → Edit := gsub reNestedCharsInSingleQuotes (replaceByText "'x'")

def replaceLeftAngles : Text → Edit := gsub reLeftAngles (replaceByText "++")

def replaceLt : Text → Edit := gsub reLt (replaceByText " + ")

def replaceSeastar : Text → Edit := gsub reSeastar (replaceByText " ")

/-- `replace_whitespaces`. -/
def replaceWhitespaces : List (Text → Edit) :=
  [gsub reOuterWhitespaces (replaceByText ""), gsub reInnerWhitespaces (replaceByText " ")]

/-- What is done to each line once the comments and strings are gone. -/
def replaceInLine : List (Text → Edit) :=
  [replaceSingleLineComment, replaceNestedChar, replaceLeftAngles, replaceLt, replaceSeastar] ++
    replaceWhitespaces

def removeKeywordsAndAttributes : Text → Edit := gsub reKeywordsAndAttributes (replaceByText "")

def removeGccAttributes : Text → Edit := gsub reGccAttribute (replaceByText "")

def replaceTemplateArgs1Layer : Text → Edit := gsub reTemplateArgs1Layer blankLines

def replaceStdFunction : Text → Edit := gsub reStdFunction keepGroup

def removeNoexceptAndThrow : Text → Edit := gsub reNoexceptThrow (replaceByText "")

def removeNoexcept : Text → Edit := gsub reNoexcept (replaceByText " ")

def replaceMacroDefs : Text → Edit := gsub reMacroDef blankLines

def replaceArrowReturn : Text → Edit := gsub reArrowReturn blankLines

def removeMisc : Text → Edit := gsub reMisc blankLines

/-- **The rewriting steps** of `preprocess_one_cpp_file`, in their order. -/
def rewritingSteps : List (Text → Edit) :=
  [replaceConditionalCompilationMidBranch, replaceIgnoredFunctions,
    replaceConditionalCompilationEndBranch, byLine replaceConditionalCompilationBeginBranch,
    replaceSlashStarComment, replaceSingleChar, replaceQuotedString, byLine (runSteps replaceInLine),
    removeKeywordsAndAttributes, removeGccAttributes, replaceTemplateArgs1Layer, replaceStdFunction,
    removeNoexceptAndThrow, removeNoexcept, replaceMacroDefs, replaceArrowReturn, removeMisc]

/-! ## The whole rewriting -/

/-- `repeat_apply`, for a function that returns `$1` as well: it goes on
while there was a match. -/
def repeatApply (f : Text → Edit) (r : Regex) : ℕ → Text → Edit
  | 0, t => f t
  | n + 1, t =>
    if (r.scan t).any Part.isFound && 0 < n then comp (f t) (repeatApply f r n (target (f t)))
    else f t

/-- The rewriting of `preprocess_one_cpp_file`. `replace_ignored_functions`
does not return `$1`, and is applied once. -/
def preprocessSteps : List (Text → Edit) :=
  [repeatApply replaceConditionalCompilationMidBranch reConditionalCompileMidBranch 10,
    replaceIgnoredFunctions, replaceConditionalCompilationEndBranch,
    byLine replaceConditionalCompilationBeginBranch, replaceSlashStarComment, replaceSingleChar,
    replaceQuotedString, byLine (runSteps replaceInLine), removeKeywordsAndAttributes,
    removeGccAttributes, repeatApply replaceTemplateArgs1Layer reTemplateArgs1Layer 4,
    replaceStdFunction, removeNoexceptAndThrow, removeNoexcept, replaceMacroDefs, replaceArrowReturn,
    removeMisc]

/-- **The text that `preprocess_one_cpp_file` writes.** -/
def preprocessContent (content : Text) : Text := target (runSteps preprocessSteps content)

end Calltree

end CppEtudes
