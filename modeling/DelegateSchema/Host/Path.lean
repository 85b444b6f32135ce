/-
  DelegateSchema.Host.Path — the names in a path.

  Slashes divide the names of a path; several in a row count as one, and a dot stands for the
  folder that holds it.  Everything here looks at the text alone and not at any file.
-/
import DelegateSchema.Text.Blank

namespace DelegateSchema.Host.Path

/-! ## §1. Names -/

/-- Whether a path starts at the root. -/
def isAbsolute (path : String) : Bool :=
  path.toList.head? == some '/'

/-- The names between the slashes. -/
def pieces (path : String) : List String :=
  ((path.toList.splitOn '/').filter fun piece => !piece.isEmpty).map String.ofList

/-- The names without dots, except for a dot at the very front of a relative path. -/
def names (path : String) : List String :=
  match pieces path with
  | [] => []
  | first :: rest =>
    let rest := rest.filter (· ≠ ".")
    if first = "." ∧ isAbsolute path then rest else first :: rest

/-- The path of the given names. -/
def ofNames (absolute : Bool) (names : List String) : String :=
  (if absolute then "/" else "") ++ "/".intercalate names

/-- The folder a path lies in; none if that is the working folder and not named, or if there is
    none at all. -/
def parent? (path : String) : Option String :=
  match names path with
  | [] => none
  | names =>
    if names.length = 1 ∧ !isAbsolute path then none
    else some (ofNames (isAbsolute path) names.dropLast)

/-- The path of something below a folder. -/
def join (folder path : String) : String :=
  if folder.isEmpty || folder.toList.getLast? == some '/' then folder ++ path
  else folder ++ "/" ++ path

/-! ## §2. Extensions -/

/-- What follows the last dot of a name, if something comes before that dot. -/
def nameExtension? (name : List Char) : Option (List Char) :=
  match (name.splitOn '.').reverse with
  | last :: before =>
    if before.all List.isEmpty && before.length ≤ 1 then none else some last
  | [] => none

/-- The extension of the last name of a path. -/
def extension? (path : String) : Option (List Char) :=
  match (names path).getLast? with
  | none => none
  | some name => if name = "." ∨ name = ".." then none else nameExtension? name.toList

end DelegateSchema.Host.Path
