/-
  DelegateSchema.Generate — from a schema to a written and formatted file.

  Nothing is written before the whole schema is compiled.  A formatter that fails costs a warning
  and leaves the unformatted file in place.
-/
import DelegateSchema.Compile.Build
import DelegateSchema.Host.Basic
import DelegateSchema.Host.Path
import DelegateSchema.Settings.Basic
import DelegateSchema.Target.Text
import DelegateSchema.Tool.Formatter
import DelegateSchema.Tool.Version

namespace DelegateSchema

open Host (FileError)
open Tool (FormatError Version)

/-! ## §1. Faults -/

/-- Why no file is generated. -/
inductive GenerateError where
  /-- No one says where the file goes. -/
  | missingOutput
  /-- The schema cannot be compiled. -/
  | compile (cause : CompileError)
  /-- The file cannot be written. -/
  | writeFailed (path : String) (cause : FileError)

/-- The wording of a fault. -/
def GenerateError.message : GenerateError → String
  | .missingOutput => "Output file is not specified"
  | .compile cause => cause.message
  | .writeFailed path cause => "Failed to write " ++ path ++ ": " ++ cause.message

/-- What a generation leaves to report. -/
structure Outcome where
  /-- Where the file went. -/
  output : String
  /-- What went wrong without harm, in order. -/
  warnings : List String

/-! ## §2. Generation -/

/-- The parts of a generation that can be exchanged. -/
structure Tools (m : Type → Type) where
  /-- The installed version of the target tool. -/
  version : m (Option String)
  /-- Formats the file at a path. -/
  format : (path : String) → m (Except FormatError Unit)

/-- The tools that settings name. -/
def Tools.ofSettings {m : Type → Type} [Monad m] (host : Host m) (s : Settings) : Tools m where
  version := Tool.installedVersion host s.projectRoot
  format := Tool.Formatter.format ⟨s.formatter, s.formatterLimit⟩ host

/-- The compilation that settings ask for. -/
def Settings.job (s : Settings) (schema : Schema) (version : Option String) : Job where
  schema := schema
  mode := s.mode
  toolVersion := version
  clientOutput := s.clientOutput

/-- The target schema under the given settings. -/
def Settings.build (s : Settings) (schema : Schema) (version : Option String) :
    Except CompileError Target.Schema :=
  ((s.job schema version).build (.ofLength s.identifierLength)).1

/-- The warning of a formatter that failed. -/
def formatWarning : String := "Failed to format Prisma schema file"

/-- Writes a file, and the folders it lies in. -/
def writeFile {m : Type → Type} [Monad m] (host : Host m) (path content : String) :
    m (Except FileError Unit) := do
  let prepared ←
    match Host.Path.parent? path with
    | some folder => host.createFolders folder
    | none => pure (.ok ())
  match prepared with
  | .error e => return .error e
  | .ok () => host.writeText path content

/-- Compiles a schema, writes it, and formats what was written. -/
def generate {m : Type → Type} [Monad m] (host : Host m) (tools : Tools m) (settings : Settings)
    (schema : Schema) : m (Except GenerateError Outcome) := do
  match settings.output with
  | none => return .error .missingOutput
  | some output =>
    let version ← tools.version
    match settings.build schema version with
    | .error e => return .error (.compile e)
    | .ok target =>
      match ← writeFile host output target.fileText with
      | .error e => return .error (.writeFailed output e)
      | .ok () =>
        let warnings := (version.bind Version.warning?).toList
        if settings.format then
          match ← tools.format output with
          | .ok () => return .ok { output, warnings }
          | .error _ => return .ok { output, warnings := warnings ++ [formatWarning] }
        else return .ok { output, warnings }

end DelegateSchema
