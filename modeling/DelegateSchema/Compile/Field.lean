/-
  DelegateSchema.Compile.Field — model fields in the target language.

  In physical mode a column inherited from a delegate lives on the table of the delegate; only
  the identifier is repeated, without its default.  In logical mode a default that depends on the
  current user is replaced by a stand-in of the field's type.
-/
import DelegateSchema.Compile.Attribute

namespace DelegateSchema

/-- The name of a type in the target language. -/
def FieldType.targetName? (t : FieldType) : Option String :=
  match t.scalar, t.reference, t.unsupported with
  | some name, _, _ => some name
  | none, some name, _ => some name
  | none, none, some text => if text.isEmpty then none else some ("Unsupported(\"" ++ text ++ "\")")
  | none, none, none => none

/-- The stand-in for a default of a scalar type. -/
def standInValue? : String → Option Target.Value
  | "String" | "Bytes" => some (.string "")
  | "Int" | "BigInt" | "Float" | "Decimal" => some (.number "0")
  | "Boolean" => some (.boolean false)
  | "DateTime" => some (.call "now" [])
  | "Json" => some (.string "\x7b\x7d")
  | _ => none

/-- The default that stands in for one that depends on the current user. -/
def FieldType.standIn (t : FieldType) : Except CompileError Target.Attribute :=
  match t.scalar.bind standInValue? with
  | some value => .ok (.of "@default" [.positional value])
  | none => .error (.unsupportedDefault ((t.scalar.or t.reference).getD "<unknown>"))

namespace Job

/-- Whether a field of a model appears in the output. -/
def emits (j : Job) (m : Model) (f : Field) : Bool :=
  match j.mode with
  | .logical => true
  | .physical => (j.schema.storingDelegate? m f).isNone || m.isIdField f

/-- Whether the default of a field is left out, because the delegate that stores the field has
    it. -/
def dropsDefault (j : Job) (m : Model) (f : Field) : Bool :=
  j.mode == .physical && m.isIdField f && (j.schema.storingDelegate? m f).isSome

/-- Whether a usage on a field is compiled. -/
def keepsAttribute (j : Job) (m : Model) (f : Field) (a : Attribute) : Bool :=
  a.isTarget && !a.isAuthDefault && !(j.dropsDefault m f && a.isNamed "@default")

/-- The stand-in default of a field, where it needs one. -/
def standIns (j : Job) (f : Field) : Except CompileError (List Target.Attribute) :=
  if j.mode == .logical && f.attributes.any Attribute.isAuthDefault then do
    return [← f.type.standIn]
  else .ok []

/-- A field of a model in the target language. -/
def toTargetField (j : Job) (m : Model) (f : Field) : Except CompileError Target.Field := do
  match f.type.targetName? with
  | none => .error (.unresolvedFieldType m.name f.name)
  | some typeName =>
    let attributes ← (f.attributes.filter (j.keepsAttribute m f)).mapM Attribute.toTarget
    let standIns ← j.standIns f
    return {
      name := f.name
      type := ⟨typeName, f.type.array, f.type.optional⟩
      attributes := attributes ++ standIns
      docs := attributeDocs f.attributes ++ f.comments }

end Job

end DelegateSchema
