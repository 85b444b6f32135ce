/-
  DelegateSchema.Settings.Basic — how a schema is compiled and written.

  Every setting has a default.  Three of them have a range, which is checked after all sources
  of settings have been put together.
-/
import DelegateSchema.Compile.Basic

namespace DelegateSchema

/-! ## §1. Settings -/

/-- How a schema is compiled and written. -/
structure Settings where
  /-- The path of the schema file, which has to be given by someone. -/
  output : Option String := none
  mode : Mode := .physical
  /-- Whether the written file is formatted. -/
  format : Bool := true
  /-- Where the generated client goes, instead of what the schema says. -/
  clientOutput : Option String := none
  /-- The command line of the formatter. -/
  formatter : String := "npx prisma format --schema"
  /-- How many seconds the formatter may take. -/
  formatterTimeout : Option Nat := none
  /-- The length of generated identifiers. -/
  identifierLength : Nat := Identifier.standardLength
  /-- Where the installed target tool is looked for. -/
  projectRoot : String := "."
  deriving DecidableEq

/-! ## §2. Ranges -/

/-- A setting out of its range. -/
inductive Violation where
  | formatter
  | formatterTimeout
  | identifierLength
  deriving DecidableEq

namespace Violation

/-- The name of the setting. -/
def setting : Violation → String
  | .formatter => "formatter_command"
  | .formatterTimeout => "formatter_timeout_secs"
  | .identifierLength => "identifier_max_length"

/-- The wording of a violation. -/
def message : Violation → String
  | .formatter => "Formatter command cannot be empty"
  | .formatterTimeout => "Formatter timeout must be between 1 and 3600 seconds"
  | .identifierLength => "Identifier max length must be between 20 and 255"

end Violation

namespace Settings

/-- The settings out of their range, sorted by name. -/
def violations (s : Settings) : List Violation :=
  (if s.formatter.isEmpty then [.formatter] else []) ++
    (if s.formatterTimeout.all fun n => 1 ≤ n && n ≤ 3600 then [] else [.formatterTimeout]) ++
    (if 20 ≤ s.identifierLength && s.identifierLength ≤ 255 then [] else [.identifierLength])

/-- How many milliseconds the formatter may take. -/
def formatterLimit (s : Settings) : Option Nat :=
  s.formatterTimeout.map (· * 1000)

end Settings

/-! ## §3. Overrides -/

/-- Settings that replace others; what is not given stays. -/
structure Overrides where
  output : Option String := none
  mode : Option Mode := none
  format : Option Bool := none
  clientOutput : Option String := none
  formatter : Option String := none
  formatterTimeout : Option Nat := none
  identifierLength : Option Nat := none
  projectRoot : Option String := none
  deriving DecidableEq

/-- Replaces the settings that are given. -/
def Settings.override (s : Settings) (o : Overrides) : Settings where
  output := o.output <|> s.output
  mode := o.mode.getD s.mode
  format := o.format.getD s.format
  clientOutput := o.clientOutput <|> s.clientOutput
  formatter := o.formatter.getD s.formatter
  formatterTimeout := o.formatterTimeout <|> s.formatterTimeout
  identifierLength := o.identifierLength.getD s.identifierLength
  projectRoot := o.projectRoot.getD s.projectRoot

end DelegateSchema
