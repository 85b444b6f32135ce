/-
  DelegateSchema.Compile.Basic — what a compilation needs and how it can fail.

  There are two ways to lay out delegates.  In physical mode a subtype is a table of its own,
  linked to the table of its base, and the inherited columns live on the base.  In logical mode
  every model holds all its fields, and a relation to a delegate is widened to one relation for
  each concrete subtype.
-/
import DelegateSchema.Identifier.Basic
import DelegateSchema.Schema.Keys
import DelegateSchema.Schema.Lineage
import DelegateSchema.Target.Basic

namespace DelegateSchema

/-! ## §1. Modes -/

/-- How delegates are laid out. -/
inductive Mode where
  | physical
  | logical
  deriving DecidableEq

namespace Mode

/-- The name of a mode. -/
def text : Mode → String
  | .physical => "physical"
  | .logical => "logical"

/-- The mode of a name, exactly as `text` writes it. -/
def ofText? (name : String) : Option Mode :=
  if name = "physical" then some .physical
  else if name = "logical" then some .logical
  else none

/-- A name that is no mode. -/
structure Unknown where
  text : String
  deriving DecidableEq

/-- The wording of a refusal. -/
def Unknown.message (e : Unknown) : String :=
  "unknown generation mode '" ++ e.text ++ "', expected 'physical' or 'logical'"

/-- Reads a mode; the case of ASCII letters does not matter. -/
def parse (text : String) : Except Unknown Mode :=
  match ofText? (String.ofList (Text.lowerAscii text.toList)) with
  | some mode => .ok mode
  | none => .error ⟨text⟩

end Mode

/-! ## §2. Faults -/

/-- Why a schema cannot be compiled. -/
inductive CompileError where
  /-- A field names no type. -/
  | unresolvedFieldType (model field : String)
  /-- An attribute argument is of a form that the target language has no place for. -/
  | unsupportedArgument (kind : Expression.Kind)
  /-- A default that depends on the current user is given to a type without a stand-in. -/
  | unsupportedDefault (typeName : String)
  /-- An attribute that injects text has none. -/
  | invalidPassthrough (name : String)
  /-- The preview features of a generator are not a list. -/
  | invalidPreviewFeatures (generator : String)
  deriving DecidableEq

/-- The wording of a fault. -/
def CompileError.message : CompileError → String
  | .unresolvedFieldType model field => "Field type is not resolved: " ++ model ++ "." ++ field
  | .unsupportedArgument kind => "Unsupported attribute argument expression type: " ++ kind.label
  | .unsupportedDefault typeName => "Unsupported field type with default value: " ++ typeName
  | .invalidPassthrough name => "Invalid arguments for " ++ name ++ " attribute"
  | .invalidPreviewFeatures generator =>
    "Option \"previewFeatures\" of generator `" ++ generator ++ "` must be an array"

/-! ## §3. Compilations -/

/-- What is to be compiled, and how. -/
structure Job where
  schema : Schema
  mode : Mode
  /-- The installed version of the target tool, if one is. -/
  toolVersion : Option String := none
  /-- Where the generated client goes, instead of what the schema says. -/
  clientOutput : Option String := none

/-- A step of a compilation: it may fail, and it may ask for identifiers. -/
abbrev Compile := ExceptT CompileError Identifier.Asking

/-- The identifier generated for a name. -/
def Compile.identifier (name : String) : Compile String :=
  ExceptT.lift (Identifier.Asking.identifier name)

/-- A step that asks for nothing. -/
def Compile.ofExcept {α : Type} (x : Except CompileError α) : Compile α :=
  ExceptT.mk (pure x)

end DelegateSchema
