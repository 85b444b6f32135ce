/-
  DelegateSchema.Document.File — documents and schemas from files.

  A file whose extension is `json` in any case of letters is JSON, every other file is YAML.
-/
import DelegateSchema.Document.Source
import DelegateSchema.Host.Basic
import DelegateSchema.Host.Path
import DelegateSchema.Schema.Basic
import DelegateSchema.Text.Lowercase

namespace DelegateSchema

open Host (FileError)

/-- Why a document or a schema cannot be had from a file. -/
inductive LoadError where
  /-- The file cannot be read. -/
  | file (path : String) (cause : FileError)
  /-- The file does not hold a document. -/
  | document (cause : DecodeError)
  /-- The document does not resolve. -/
  | resolve (cause : ResolveError)

/-- The wording of a fault. -/
def LoadError.message : LoadError → String
  | .file path cause => "Failed to read model file: " ++ path ++ ": " ++ cause.message
  | .document cause => "Failed to parse model document: " ++ cause.message
  | .resolve cause => cause.message

/-- The notation that the name of a file asks for. -/
def Format.ofPath (path : String) : Format :=
  match Host.Path.extension? path with
  | some ext => if Text.lowerAscii ext = "json".toList then .json else .yaml
  | none => .yaml

/-- A document from a file in the given notation. -/
def Document.loadAs {m : Type → Type} [Monad m] (format : Format) (host : Host m) (path : String) :
    m (Except LoadError Document) := do
  match ← host.readText path with
  | .error e => return .error (.file path e)
  | .ok text => return (Document.parse format text).mapError .document

/-- A document from a file. -/
def Document.load {m : Type → Type} [Monad m] (host : Host m) (path : String) :
    m (Except LoadError Document) :=
  Document.loadAs (Format.ofPath path) host path

/-- A schema from a file. -/
def Schema.load {m : Type → Type} [Monad m] (host : Host m) (path : String) :
    m (Except LoadError Schema) := do
  match ← Document.load host path with
  | .error e => return .error e
  | .ok document => return (Schema.ofDocument document).mapError .resolve

end DelegateSchema
