import Protofire.Lib.Utf8
import Protofire.SimpleFs.Types

/-!
# Paths and names

The text functions of `fs/simplefs/format_io.rs` that paths go through, and the comparison
of names of `fs/unicode/casefold.rs`. They are written as the code has them – trimming,
splitting, cutting at the last slash.
-/

namespace Protofire.SimpleFs

/-! ### The functions of the code -/

variable (path : Name)

/-- `trim_end_matches('/')`. -/
def trimEndSlashes : Name := path.rdropWhile (· == '/')

/-- `trim_matches('/')`. -/
def trimSlashes : Name := trimEndSlashes (path.dropWhile (· == '/'))

/-- `rsplit_once('/')`. -/
def rsplitOnceSlash : Option (Name × Name) :=
  match path.reverse.dropWhile (· != '/') with
  | [] => none
  | _ :: before => some (before.reverse, (path.reverse.takeWhile (· != '/')).reverse)

/-- `parent_path`. -/
def parentPath : Option Name :=
  if path = ['/'] then none
  else
    let parent := ((rsplitOnceSlash (trimEndSlashes path)).map Prod.fst).getD ['/']
    some (if parent = [] then ['/'] else parent)

/-- `base_name`. -/
def baseName : Name :=
  (((trimEndSlashes path).splitOn '/').reverse.find? (· != [])).getD ['/']

/-- `str::len`. -/
def byteLength (name : Name) : ℕ := (Utf8.encode name).length

/-- `validate_dir_entry_name_for_format`; the bound is the same for every format. -/
def validateDirEntryName (name : Name) : Except Error Unit :=
  if name = [] ∨ name = ['/'] ∨ '/' ∈ name ∨ direntNameMaxLen < byteLength name
  then .error .invalidArgument
  else .ok ()

variable (simpleFolds : Char → Option Char)

/-- `fold_char`. The table of the letters beyond ASCII is a parameter. -/
def foldChar (c : Char) : Char :=
  if c.val < 0x80 then c.toLower else (simpleFolds c).getD c

/-- `names_match`: `eq_unicode_insensitive` compares the folded characters one by one. -/
def namesMatch (caseSensitive : Bool) (left right : Name) : Bool :=
  if caseSensitive then left == right
  else left.map (foldChar simpleFolds) == right.map (foldChar simpleFolds)

end Protofire.SimpleFs
