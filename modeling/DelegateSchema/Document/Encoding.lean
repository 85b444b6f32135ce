/-
  DelegateSchema.Document.Encoding — documents as data trees.

  Every field is written, also one that holds its default.  The slots that resolution fills are
  not part of a document and are left out.
-/
import DelegateSchema.Document.Declaration
import DelegateSchema.Json.Basic

namespace DelegateSchema

/-! ## §1. Leaves -/

/-- A name that may be missing. -/
def Json.ofOption : Option String → Json
  | none => .null
  | some s => .string s

/-- A list of texts. -/
def Json.ofStrings (texts : List String) : Json :=
  .array (texts.map .string)

/-- A literal is an object of one entry whose key tells its type. -/
def Literal.toJson : Literal → Json
  | .string s => .object [("string", .string s)]
  | .number n => .object [("number", .number n)]
  | .boolean b => .object [("boolean", .bool b)]

/-! ## §2. Expressions -/

namespace Expression

mutual

/-- An expression is an object of one entry whose key tells its form; `this` and `null` are plain
    strings. -/
def toJson : Expression → Json
  | .array items => .object [("array", .array (itemsToJson items))]
  | .reference target args =>
    .object [
      ("reference", .object [("target", .string target), ("args", .array (argsToJson args))])]
  | .invocation function args =>
    .object
      [("invocation", .object [("function", .string function), ("args", .array (argsToJson args))])]
  | .member operand name =>
    .object [("member", .object [("operand", operand.toJson), ("member", .string name)])]
  | .unary op operand =>
    .object [("unary", .object [("op", .string op), ("operand", operand.toJson)])]
  | .binary left op right =>
    .object
      [("binary",
        .object [("left", left.toJson), ("op", .string op), ("right", right.toJson)])]
  | .this => .string "this"
  | .null => .string "null"
  | .literal value => value.toJson

/-- The items of an array. -/
def itemsToJson : List Expression → List Json
  | [] => []
  | item :: rest => item.toJson :: itemsToJson rest

/-- The arguments of a reference or a call. -/
def argsToJson : List (Argument Expression) → List Json
  | [] => []
  | ⟨name, value⟩ :: rest =>
    .object [("name", Json.ofOption name), ("value", value.toJson)] :: argsToJson rest

end

end Expression

/-! ## §3. Attributes and types -/

/-- An attribute declaration. -/
def AttributeDecl.toJson (d : AttributeDecl) : Json :=
  .object
    [("name", .string d.name), ("prisma", .bool d.target), ("params", Json.ofStrings d.params),
     ("alias_of", Json.ofOption d.aliasOf)]

/-- An argument of an attribute usage, as written. -/
def AttributeArg.toJson (a : AttributeArg) : Json :=
  .object [("name", Json.ofOption a.name), ("value", a.value.toJson)]

/-- An attribute usage, as written. -/
def Attribute.toJson (a : Attribute) : Json :=
  .object [("name", .string a.name), ("args", .array (a.args.map AttributeArg.toJson))]

/-- A list of attribute usages. -/
def attributesToJson (attributes : List Attribute) : Json :=
  .array (attributes.map Attribute.toJson)

/-- A field type, in its long form. -/
def FieldType.toJson (t : FieldType) : Json :=
  .object
    [("scalar", Json.ofOption t.scalar), ("reference", Json.ofOption t.reference),
     ("unsupported", Json.ofOption t.unsupported), ("array", .bool t.array),
     ("optional", .bool t.optional)]

/-! ## §4. Configuration blocks -/

/-- An argument of a configuration item. -/
def configArgToJson (arg : String × Literal) : Json :=
  .object [("name", .string arg.1), ("value", arg.2.toJson)]

/-- An item of a configuration array. -/
def ConfigItem.toJson : ConfigItem → Json
  | .invocation name args =>
    .object
      [("invocation",
        .object [("name", .string name), ("args", .array (args.map configArgToJson))])]
  | .literal value => value.toJson

/-- The value of a configuration entry. -/
def ConfigValue.toJson : ConfigValue → Json
  | .invocation function args => (Expression.invocation function args).toJson
  | .array items => .object [("array", .array (items.map ConfigItem.toJson))]
  | .literal value => value.toJson

/-- A configuration entry. -/
def ConfigEntry.toJson (e : ConfigEntry) : Json :=
  .object [("name", .string e.name), ("value", e.value.toJson)]

/-! ## §5. Declarations -/

/-- A value of an enum. -/
def EnumField.toJson (f : EnumField) : Json :=
  .object
    [("name", .string f.name), ("attributes", attributesToJson f.attributes),
     ("comments", Json.ofStrings f.comments)]

/-- A field of a model. -/
def Field.toJson (f : Field) : Json :=
  .object
    [("name", .string f.name), ("type", f.type.toJson),
     ("attributes", attributesToJson f.attributes), ("comments", Json.ofStrings f.comments),
     ("inherited_from", Json.ofOption f.inheritedFrom)]

/-- A declaration: the entries of its body after the one that tells its kind. -/
def Declaration.toJson : Declaration → Json
  | .datasource b => .object (("kind", .string "datasource") :: blockEntries b)
  | .generator b => .object (("kind", .string "generator") :: blockEntries b)
  | .enum e =>
    .object
      [("kind", .string "enum"), ("name", .string e.name),
       ("fields", .array (e.fields.map EnumField.toJson)),
       ("attributes", attributesToJson e.attributes), ("comments", Json.ofStrings e.comments)]
  | .model m =>
    .object
      [("kind", .string "model"), ("name", .string m.name),
       ("fields", .array (m.fields.map Field.toJson)),
       ("attributes", attributesToJson m.attributes), ("comments", Json.ofStrings m.comments),
       ("is_view", .bool m.isView), ("is_delegate", .bool m.isDelegate),
       ("abstract", .bool m.isAbstract), ("super_types", Json.ofStrings m.superTypes)]
where
  /-- The entries of a data source or a generator. -/
  blockEntries (b : ConfigBlock) : List (String × Json) :=
    [("name", .string b.name), ("fields", .array (b.entries.map ConfigEntry.toJson))]

/-- A document. -/
def Document.toJson (d : Document) : Json :=
  .object
    [("attributes", .array (d.attributes.map AttributeDecl.toJson)),
     ("flattened", .bool d.flattened),
     ("declarations", .array (d.declarations.map Declaration.toJson))]

end DelegateSchema
