import LazyLisp.Text.Blank

/-!
A folder of text files, as a program that was started in it sees it: which paths open, and why
the others do not.
-/

namespace LazyLisp
set_option autoImplicit false

/-- Why a file cannot be read. -/
inductive OpenError
  | missing
  /-- A part of the path that has to be a folder is a file. -/
  | notFolder
  | isFolder
deriving DecidableEq, Repr

def OpenError.message : OpenError → String
  | missing => "No such file or directory (os error 2)"
  | notFolder => "Not a directory (os error 20)"
  | isFolder => "Is a directory (os error 21)"

/-- Files by their paths, whose steps are parted by slashes. -/
abbrev Folder := List (List String × String)

namespace Folder

/-- The steps of a path; a step to the same place is none. -/
def steps (path : String) : List String :=
  ((Text.pieces (· == '/') path.toList).map String.ofList).filter fun s => s != "" && s != "."

def ofFiles (files : List (String × String)) : Folder := files.map fun (path, text) => (steps path, text)

/-- Opens a path relative to the folder. Nothing is known of places outside of it. -/
def read (folder : Folder) (path : String) : Except OpenError String :=
  let target := steps path
  let asFolder := ["", ".", ".."].contains (String.ofList
    ((Text.pieces (· == '/') path.toList).getLast?.getD []))
  if path.isEmpty || path.toList.head? = some '/' || target.contains ".." then .error .missing
  else if folder.any fun (file, _) => file != target && file.isPrefixOf target then .error .notFolder
  else match folder.lookup target with
    | some text => if asFolder then .error .notFolder else .ok text
    | none =>
      if target.isEmpty || folder.any fun (file, _) => target.isPrefixOf file then .error .isFolder
      else .error .missing

end Folder

end LazyLisp
