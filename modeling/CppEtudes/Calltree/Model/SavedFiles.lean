import CppEtudes.Common.Files
import CppEtudes.Calltree.Model.Name

/-!
# Saved files

`preprocess_cpp_files` moves each source file aside, writes a copy in its
place and replaces it by the rewritten text, through a file of its own;
`restore_saved_files` undoes this after the functions were extracted, and
before a run in case the last one was interrupted. The rewriting and the
test for a text file are parameters. File names hold no newline, and `ag`
lists every file whose name matches.
-/

namespace CppEtudes

namespace Calltree

open Files

/-- The regular files of the source tree. -/
abbrev SourceTree := Store Text Char

/-! ## The names -/

def savedSuffix : Text := ".saved_by_calltree".toList

/-- The suffix of `$tmp_file`. -/
def createdSuffix : Text := ".tmp.created_by_call_tree".toList

/-- The suffix `restore_saved_files` looks for. -/
def tmpSuffix : Text := ".tmp.created_by_calltree".toList

/-- `$saved_f`. -/
def savedName (f : Text) : Text := f ++ savedSuffix

/-- `$tmp_file`. -/
def createdName (f : Text) : Text := f ++ createdSuffix

/-- `.+\.saved_by_calltree$`. -/
def isSavedName (f : Text) : Bool := savedSuffix.length < f.length && savedSuffix.isSuffixOf f

/-- `\.tmp\.created_by_calltree$`. -/
def isTmpName (f : Text) : Bool := tmpSuffix.isSuffixOf f

/-- `$original_f`. -/
def originalName (f : Text) : Text := f.take (f.length - savedSuffix.length)

/-! ## `preprocess_cpp_files` -/

variable (rewrite : Text → Text)

/-- The file operations of `preprocess_one_cpp_file`. -/
def preprocessOneCppFile (file : Text) (tree : SourceTree) : List (Op Text Char) :=
  match tree.lookup file with
  | none => []
  | some content =>
    if content.isEmpty then []
    else [.write (createdName file) (rewrite content), .rename (createdName file) file]

/-- One round of the loop of `preprocess_cpp_files`. -/
def saveAndPreprocess (f : Text) (tree : SourceTree) : List (Op Text Char) :=
  let save : Op Text Char := .rename f (savedName f)
  let copy : Op Text Char := .write f (((save.apply tree).lookup (savedName f)).getD [])
  save :: copy :: preprocessOneCppFile rewrite f (copy.apply (save.apply tree))

def preprocessEach : List Text → SourceTree → List (Op Text Char)
  | [], _ => []
  | f :: files, tree =>
    saveAndPreprocess rewrite f tree ++
      preprocessEach files (run (saveAndPreprocess rewrite f tree) tree)

/-- **`preprocess_cpp_files`**: the operations it makes on the files. -/
def preprocessCppFiles (isText : Text → Bool) (files : List Text) (tree : SourceTree) :
    List (Op Text Char) :=
  preprocessEach rewrite (files.filter fun f => !f.isEmpty && (tree.lookup f).any isText) tree

/-! ## `restore_saved_files` -/

/-- **`restore_saved_files`.** -/
def restoreSavedFiles (tree : SourceTree) : SourceTree :=
  let savedFiles := tree.keys.filter isSavedName
  let tree := run (savedFiles.map fun f => .rename f (originalName f)) tree
  let tmpFiles := tree.keys.filter isTmpName
  run (tmpFiles.map .unlink) tree

end Calltree

end CppEtudes
