/-
  DelegateSchema.Compile.Config — data sources, generators and enums in the target language.

  Configuration values are written as JSON.  The generator of the client is checked against the
  installed tool, and its output can be redirected.
-/
import DelegateSchema.Compile.Attribute
import DelegateSchema.Json.Printer
import DelegateSchema.Json.Reader
import DelegateSchema.Target.Text

namespace DelegateSchema

/-! ## §1. Values -/

/-- A literal as JSON. -/
def Literal.jsonText : Literal → String
  | .string s => Json.quote s
  | value => value.plain

/-- The text of an item of a configuration array. -/
def ConfigItem.text : ConfigItem → String
  | .literal value => value.jsonText
  | .invocation name args =>
    if args.isEmpty then name
    else
      let args := args.map fun (arg, value) => arg ++ ": " ++ value.jsonText
      name ++ "(" ++ ", ".intercalate args ++ ")"

/-- The text of a configuration value. -/
def ConfigValue.text : ConfigValue → Except CompileError String
  | .literal value => .ok value.jsonText
  | .invocation function args => do return (Target.Value.call function (← callArgTexts args)).text
  | .array items => .ok ("[" ++ ", ".intercalate (items.map ConfigItem.text) ++ "]")

/-- A data source or a generator with its values as text. -/
def ConfigBlock.toTarget (b : ConfigBlock) : Except CompileError Target.ConfigBlock := do
  let settings ← b.entries.mapM fun e => do return ⟨e.name, ← e.value.text⟩
  return ⟨b.name, settings⟩

/-! ## §2. The client generator -/

/-- The provider of the generator that writes the client. -/
def clientProvider : String := Json.quote "prisma-client-js"

/-- Writes the preview features anew, which must be a list; an empty list is left as it is. -/
def checkPreviewFeatures (b : Target.ConfigBlock) : Except CompileError Target.ConfigBlock :=
  let text := ((b.setting? "previewFeatures").map (·.text)).getD "[]"
  match Json.parse? text with
  | some (.array []) => .ok b
  | some (.array features) => .ok (b.set "previewFeatures" (Json.array features).compress)
  | _ => .error (.invalidPreviewFeatures b.name)

/-- A generator in the target language. -/
def Job.toTargetGenerator (j : Job) (b : ConfigBlock) : Except CompileError Target.ConfigBlock := do
  let block ← b.toTarget
  if (block.setting? "provider").map (·.text) == some clientProvider then
    let block ← if j.toolVersion.isSome then checkPreviewFeatures block else pure block
    match j.clientOutput with
    | some path => return block.set "output" (Json.quote path)
    | none => return block
  else return block

/-! ## §3. Enums -/

/-- A value of an enum in the target language. -/
def EnumField.toTarget (f : EnumField) : Except CompileError Target.EnumField := do
  return {
    name := f.name
    attributes := ← targetAttributes f.attributes
    docs := attributeDocs f.attributes ++ f.comments }

/-- An enum in the target language. -/
def EnumDecl.toTarget (e : EnumDecl) : Except CompileError Target.EnumBlock := do
  let fields ← e.fields.mapM EnumField.toTarget
  let attributes ← targetAttributes e.attributes
  return {
    name := e.name
    fields
    attributes
    docs := attributeDocs e.attributes ++ e.comments }

end DelegateSchema
