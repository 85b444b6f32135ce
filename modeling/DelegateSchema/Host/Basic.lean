/-
  DelegateSchema.Host.Basic — what is asked of the system a compilation runs on.

  Files and programs are reached through a record of operations in some monad, each of which may
  fail.  The operations of a real system and those of a file tree in memory have the same type,
  so everything above this layer is one program for both.
-/

namespace DelegateSchema.Host

/-! ## §1. Faults -/

/-- Why a system call fails. -/
inductive FileError where
  /-- There is no such file or folder. -/
  | missing
  /-- A file stands where a folder is needed. -/
  | notFolder
  /-- A folder stands where a file is needed. -/
  | isFolder
  /-- There is something already. -/
  | occupied
  /-- A file may not be run. -/
  | denied
  /-- The bytes of a file are not UTF-8. -/
  | notText
  /-- Something else, in the system's own words. -/
  | other (text : String)
  deriving DecidableEq

/-- The wording of a fault. -/
def FileError.message : FileError → String
  | .missing => "No such file or directory (os error 2)"
  | .notFolder => "Not a directory (os error 20)"
  | .isFolder => "Is a directory (os error 21)"
  | .occupied => "File exists (os error 17)"
  | .denied => "Permission denied (os error 13)"
  | .notText => "stream did not contain valid UTF-8"
  | .other text => text

/-- How the run of a program ends. -/
inductive Ending where
  /-- It never started. -/
  | notStarted (cause : FileError)
  /-- It ended by itself. -/
  | exited (status : Nat)
  /-- Its time was up. -/
  | stopped
  deriving DecidableEq

end DelegateSchema.Host

namespace DelegateSchema

open Host (FileError Ending)

/-! ## §2. Operations -/

/-- The operations of a system; paths are texts. -/
structure Host (m : Type → Type) where
  /-- The content of a file. -/
  readBytes : (path : String) → m (Except FileError ByteArray)
  /-- Creates a folder and all folders above it, unless they are there. -/
  createFolders : (path : String) → m (Except FileError Unit)
  /-- Creates or replaces a file. -/
  writeText : (path content : String) → m (Except FileError Unit)
  /-- Runs a program with arguments, for at most so many milliseconds. -/
  run : (program : String) → (args : List String) → (limit : Option Nat) → m Ending

/-- The content of a text file. -/
def Host.readText {m : Type → Type} [Monad m] (host : Host m) (path : String) :
    m (Except FileError String) := do
  match ← host.readBytes path with
  | .error e => return .error e
  | .ok bytes =>
    match String.fromUTF8? bytes with
    | some text => return .ok text
    | none => return .error .notText

end DelegateSchema
