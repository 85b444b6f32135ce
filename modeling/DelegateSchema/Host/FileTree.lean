/-
  DelegateSchema.Host.FileTree — files and folders in memory.

  A tree lists its files and folders by their names from the root downwards.  Paths are followed
  as a system does it: every name but the last must be that of a folder, two dots lead upwards,
  and a slash at the end asks for a folder.  A failed operation leaves the tree as it was.  Which
  programs there are, and what they do to the tree, is left open.
-/
import DelegateSchema.Host.Basic
import DelegateSchema.Host.Path

namespace DelegateSchema.Host

/-! ## §1. Trees -/

/-- What stands at a place of a tree. -/
inductive Entry where
  | folder
  | file (content : ByteArray)

/-- A tree of files, and the folder that relative paths start from. -/
structure FileTree where
  home : List String := []
  entries : List (List String × Entry) := []

namespace FileTree

/-- What stands at a place; the root is always a folder. -/
def at? (t : FileTree) (place : List String) : Option Entry :=
  if place.isEmpty then some .folder else t.entries.lookup place

/-- Puts an entry at a place, instead of what stands there. -/
def put (t : FileTree) (place : List String) (entry : Entry) : FileTree :=
  { t with
    entries :=
      if (t.entries.lookup place).isSome then
        t.entries.map fun e => if e.1 = place then (place, entry) else e
      else t.entries ++ [(place, entry)] }

/-! ## §2. Following paths -/

/-- Goes from a folder through the named folders. -/
def enter (t : FileTree) (folder : List String) : List String → Except FileError (List String)
  | [] => .ok folder
  | name :: rest =>
    if name = "." then enter t folder rest
    else if name = ".." then enter t folder.dropLast rest
    else
      match t.at? (folder ++ [name]) with
      | none => .error .missing
      | some (.file _) => .error .notFolder
      | some .folder => enter t (folder ++ [name]) rest

/-- Where a path leads. -/
structure Target where
  /-- The folder of the last name. -/
  folder : List String
  /-- The last name, unless the path leads to the folder itself. -/
  name : Option String
  /-- Whether the path ends with a slash. -/
  asFolder : Bool

/-- The place a path leads to. -/
def Target.place (target : Target) : List String :=
  target.folder ++ target.name.toList

/-- Follows a path to its last name. -/
def locate (t : FileTree) (path : String) : Except FileError Target :=
  if path.isEmpty then .error .missing
  else
    let start := if Path.isAbsolute path then [] else t.home
    let asFolder := path.toList.getLast? == some '/'
    match (Path.pieces path).reverse with
    | [] => .ok ⟨start, none, asFolder⟩
    | last :: before => do
      let folder ← t.enter start before.reverse
      if last = "." then return ⟨folder, none, asFolder⟩
      else if last = ".." then return ⟨folder.dropLast, none, asFolder⟩
      else return ⟨folder, some last, asFolder⟩

/-- What a path leads to. -/
def entry (t : FileTree) (path : String) : Except FileError Entry := do
  let target ← t.locate path
  match t.at? target.place with
  | none => .error .missing
  | some .folder => return .folder
  | some (.file content) =>
    if target.asFolder then .error .notFolder else return .file content

/-- Whether a path leads to a folder. -/
def isFolder (t : FileTree) (path : String) : Bool :=
  match t.entry path with
  | .ok .folder => true
  | _ => false

/-! ## §3. Operations -/

/-- The content of a file. -/
def readBytes (t : FileTree) (path : String) : Except FileError ByteArray := do
  match ← t.entry path with
  | .folder => .error .isFolder
  | .file content => return content

/-- Creates or replaces a file. -/
def writeBytes (t : FileTree) (path : String) (content : ByteArray) :
    Except FileError FileTree := do
  let target ← t.locate path
  if target.asFolder || target.name.isNone then .error .isFolder
  else
    match t.at? target.place with
    | some .folder => .error .isFolder
    | _ => return t.put target.place (.file content)

/-- Creates a folder in a folder that is there. -/
def createFolder (t : FileTree) (path : String) : Except FileError FileTree := do
  let target ← t.locate path
  if (t.at? target.place).isSome then .error .occupied else return t.put target.place .folder

/-- Creates a folder, which may be there already. -/
def ensureFolder (t : FileTree) (path : String) : Except FileError FileTree :=
  match t.createFolder path with
  | .ok t => .ok t
  | .error e => if t.isFolder path then .ok t else .error e

/-- Creates the folder of the given names, last one first, and those above it as far as they are
    missing. -/
def createNames (absolute : Bool) : (names : List String) → FileTree → Except FileError FileTree
  | [], t => .ok t
  | name :: above, t =>
    let path := Path.ofNames absolute (name :: above).reverse
    match t.ensureFolder path with
    | .error .missing => do (← createNames absolute above t).ensureFolder path
    | result => result

/-- Creates a folder and all folders above it, unless they are there. -/
def createFolders (t : FileTree) (path : String) : Except FileError FileTree :=
  createNames (Path.isAbsolute path) (Path.names path).reverse t

/-! ## §4. Programs -/

/-- What a program leaves behind: its exit status, its time in milliseconds, and the tree. -/
structure Trace where
  status : Nat
  time : Nat := 0
  tree : FileTree

/-- The programs that can be run, by their names. -/
abbrev Programs := List (String × (List String → FileTree → Trace))

/-- Finds a program: by its name, or by its path, where no file may be run. -/
def find (t : FileTree) (programs : Programs) (name : String) :
    Except FileError (List String → FileTree → Trace) :=
  match programs.lookup name with
  | some program => .ok program
  | none =>
    if name.toList.contains '/' then do
      let _ ← t.entry name
      .error .denied
    else .error .missing

/-- Runs a program.  One that takes as long as the limit, or longer, is stopped and leaves the
    tree as it was. -/
def run (t : FileTree) (programs : Programs) (name : String) (args : List String)
    (limit : Option Nat) : Ending × FileTree :=
  match t.find programs name with
  | .error e => (.notStarted e, t)
  | .ok program =>
    let trace := program args t
    match limit with
    | some limit =>
      if limit ≤ trace.time then (.stopped, t) else (.exited trace.status, trace.tree)
    | none => (.exited trace.status, trace.tree)

end FileTree

/-- The operations of a file tree that is changed step by step, with the given programs. -/
def treeHost (programs : FileTree.Programs) : Host (StateM FileTree) where
  readBytes path := fun t => (t.readBytes path, t)
  createFolders path := fun t => settle t (t.createFolders path)
  writeText path content := fun t => settle t (t.writeBytes path content.toUTF8)
  run program args limit := fun t => t.run programs program args limit
where
  /-- A failed change leaves the tree as it was. -/
  settle (t : FileTree) : Except FileError FileTree → Except FileError Unit × FileTree
    | .ok t => (.ok (), t)
    | .error e => (.error e, t)

end DelegateSchema.Host
