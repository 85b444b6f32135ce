/-
  DelegateSchema.Settings.Source — where settings come from.

  Settings come from environment variables, from the command line, or from a YAML file.  A
  variable is read before the command line is looked at, so one with a bad value is refused also
  where the command line replaces it.
-/
import DelegateSchema.Document.Record
import DelegateSchema.Host.Basic
import DelegateSchema.Settings.Basic
import DelegateSchema.Text.Natural
import DelegateSchema.Yaml.Reader
import DelegateSchema.Yaml.Record

namespace DelegateSchema

open Host (FileError)
open Json (fill)

/-! ## §1. Faults -/

/-- Why the value of a variable is refused. -/
inductive VariableError where
  | mode (cause : Mode.Unknown)
  | boolean
  | number (cause : Text.NaturalError)
  deriving DecidableEq

/-- The wording of a refusal. -/
def VariableError.message : VariableError → String
  | .mode cause => cause.message
  | .boolean => "provided string was not `true` or `false`"
  | .number cause => cause.message

/-- Why there are no settings. -/
inductive SettingsError where
  /-- A variable has a bad value. -/
  | variable (name value : String) (cause : VariableError)
  /-- The settings file cannot be read. -/
  | file (cause : FileError)
  /-- The settings file does not hold settings. -/
  | content (text : String) (cause : DecodeError)
  /-- Settings are out of their range. -/
  | invalid (violations : List Violation)
  deriving DecidableEq

namespace SettingsError

/-- What lies behind a fault, in words. -/
def cause : SettingsError → String
  | .variable _ _ cause => cause.message
  | .file cause => cause.message
  | .content _ cause => cause.message
  | .invalid violations => "\n".intercalate (violations.map fun v => v.setting ++ ": " ++ v.message)

/-- The wording of a fault. -/
def message (e : SettingsError) : String :=
  match e with
  | .variable name value _ => "Parse error for " ++ name ++ ": " ++ value ++ " - " ++ e.cause
  | .file _ => "Parse error for yaml_file: file read failed - " ++ e.cause
  | .content text _ => "Parse error for yaml_content: " ++ text ++ " - " ++ e.cause
  | .invalid _ => "Validation error: " ++ e.cause

end SettingsError

/-- Settings that are all in their range. -/
def Settings.validate (s : Settings) : Except SettingsError Settings :=
  if s.violations.isEmpty then .ok s else .error (.invalid s.violations)

/-! ## §2. Environment variables -/

/-- The values of the environment variables; of several for one name the first counts. -/
abbrev Environment := List (String × String)

namespace Environment

/-- The value of a variable. -/
def get? (env : Environment) (name : String) : Option String :=
  env.lookup name

/-- Reads the value of a variable that may be missing. -/
def read? {α : Type} (env : Environment) (name : String)
    (parse : String → Except VariableError α) : Except SettingsError (Option α) :=
  match env.get? name with
  | none => .ok none
  | some value => ((parse value).mapError (.variable name value)).map some

/-- A mode; the case of letters does not matter. -/
def parseMode (value : String) : Except VariableError Mode :=
  (Mode.parse value).mapError .mode

/-- A truth value. -/
def parseBool (value : String) : Except VariableError Bool :=
  if value = "true" then .ok true
  else if value = "false" then .ok false
  else .error .boolean

/-- A number of 64 bits. -/
def parseNatural (value : String) : Except VariableError Nat :=
  (Text.readNatural Text.wordLimit value.toList).mapError .number

/-- The settings that the variables give. -/
def overrides (env : Environment) : Except SettingsError Overrides := do
  return {
    output := env.get? "POLYSCHEMA_OUTPUT"
    mode := ← env.read? "POLYSCHEMA_MODE" parseMode
    format := ← env.read? "POLYSCHEMA_FORMAT" parseBool
    clientOutput := env.get? "POLYSCHEMA_CLIENT_OUTPUT"
    formatter := env.get? "POLYSCHEMA_FORMATTER"
    formatterTimeout := ← env.read? "POLYSCHEMA_FORMATTER_TIMEOUT" parseNatural
    identifierLength := ← env.read? "POLYSCHEMA_IDENTIFIER_MAX_LENGTH" parseNatural
    projectRoot := env.get? "POLYSCHEMA_PROJECT_ROOT" }

end Environment

namespace Settings

/-- The settings of an environment. -/
def ofEnvironment (env : Environment) : Except SettingsError Settings := do
  (({} : Settings).override (← env.overrides)).validate

/-- The settings of a command line. -/
def ofOverrides (o : Overrides) : Except SettingsError Settings :=
  (({} : Settings).override o).validate

/-- The settings of an environment, replaced by those of a command line. -/
def ofBoth (env : Environment) (o : Overrides) : Except SettingsError Settings := do
  ((({} : Settings).override (← env.overrides)).override o).validate

/-! ## §3. Files -/

/-- A mode, exactly as it is written. -/
def yamlMode (v : Yaml) : Decoded Mode := do
  match Mode.ofText? (← v.toText) with
  | some mode => return mode
  | none => .error (.mismatch "a mode")

/-- The settings that a mapping gives; the inner option tells null from no entry. -/
structure Draft where
  output : Option (Option String) := none
  mode : Option Mode := none
  format : Option Bool := none
  clientOutput : Option (Option String) := none
  formatter : Option String := none
  formatterTimeout : Option (Option Nat) := none
  identifierLength : Option Nat := none
  projectRoot : Option String := none

/-- The draft with one more entry of the mapping. -/
def Draft.put (d : Draft) (key : String) (x : Yaml) : Decoded Draft :=
  if key = "output" then do return { d with output := ← fill key d.output x.toText? }
  else if key = "mode" then do return { d with mode := ← fill key d.mode (yamlMode x) }
  else if key = "format" then do return { d with format := ← fill key d.format x.toBool }
  else if key = "override_client_output" then do
    return { d with clientOutput := ← fill key d.clientOutput x.toText? }
  else if key = "formatter_command" then do
    return { d with formatter := ← fill key d.formatter x.toText }
  else if key = "formatter_timeout_secs" then do
    return { d with formatterTimeout := ← fill key d.formatterTimeout x.toNatural? }
  else if key = "identifier_max_length" then do
    return { d with identifierLength := ← fill key d.identifierLength x.toNatural }
  else if key = "project_root" then do
    return { d with projectRoot := ← fill key d.projectRoot x.toText }
  else x.skip d

/-- The settings of a finished draft. -/
def Draft.finish (d : Draft) : Settings :=
  ({} : Settings).override { d with
    output := d.output.join
    clientOutput := d.clientOutput.join
    formatterTimeout := d.formatterTimeout.join }

/-- Settings from a YAML tree. -/
def ofYaml (v : Yaml) : Decoded Settings := do
  return (← v.toRecord {} Draft.put).finish

/-- Settings from the text of a file. -/
def parse (text : String) : Except SettingsError Settings :=
  let source := Yaml.read text
  match ofYaml source.tree with
  | .error e => .error (.content text e)
  | .ok settings => if source.finished then settings.validate else .error (.content text .broken)

/-- Settings from a file. -/
def ofFile {m : Type → Type} [Monad m] (host : Host m) (path : String) :
    m (Except SettingsError Settings) := do
  match ← host.readText path with
  | .error e => return .error (.file e)
  | .ok text => return parse text

end Settings

end DelegateSchema
