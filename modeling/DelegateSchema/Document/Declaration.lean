/-
  DelegateSchema.Document.Declaration — the declarations of a document.

  A document is a list of declarations in source order: data sources and generators, which hold
  configuration values, enums, and models.  A model may name other models as its super types and
  may be a delegate, that is, a base whose subtypes are stored in tables of their own.
-/
import DelegateSchema.Document.Attribute
import DelegateSchema.Document.FieldType

namespace DelegateSchema

/-! ## §1. Configuration blocks -/

/-- An item of a configuration array. -/
inductive ConfigItem where
  /-- A name with named arguments, as in `fullTextIndex(sort: "asc")`. -/
  | invocation (name : String) (args : List (String × Literal))
  | literal (value : Literal)
  deriving DecidableEq

/-- The value of a configuration entry. -/
inductive ConfigValue where
  | invocation (function : String) (args : List (Argument Expression))
  | array (items : List ConfigItem)
  | literal (value : Literal)

/-- The content of a string value. -/
def ConfigValue.asString? : ConfigValue → Option String
  | .literal (.string s) => some s
  | _ => none

/-- An entry `name = value`. -/
structure ConfigEntry where
  name : String
  value : ConfigValue

/-- A data source or a generator. -/
structure ConfigBlock where
  name : String
  entries : List ConfigEntry := []

/-- The first entry of the given name. -/
def ConfigBlock.entry? (b : ConfigBlock) (name : String) : Option ConfigEntry :=
  b.entries.find? (·.name == name)

/-! ## §2. Enums -/

/-- A value of an enum. -/
structure EnumField where
  name : String
  attributes : List Attribute := []
  comments : List String := []

/-- An enum. -/
structure EnumDecl where
  name : String
  fields : List EnumField := []
  attributes : List Attribute := []
  comments : List String := []

/-! ## §3. Models -/

/-- A field of a model. -/
structure Field where
  name : String
  type : FieldType
  attributes : List Attribute := []
  comments : List String := []
  /-- The model that declared the field, when it was not this one. -/
  inheritedFrom : Option String := none

namespace Field

/-- The first usage of the attribute of the given canonical name. -/
def attribute? (f : Field) (name : String) : Option Attribute :=
  f.attributes.find? (·.isNamed name)

/-- Whether the field carries the attribute of the given canonical name. -/
def hasAttribute (f : Field) (name : String) : Bool :=
  (f.attribute? name).isSome

/-- The name given to the field's relation. -/
def relationName? (f : Field) : Option String := do
  let relation ← f.attribute? "@relation"
  let value ← relation.arg? "name"
  value.asString?

end Field

/-- A table or a view. -/
structure Model where
  name : String
  fields : List Field := []
  attributes : List Attribute := []
  comments : List String := []
  isView : Bool := false
  /-- Whether subtypes are stored in tables of their own. -/
  isDelegate : Bool := false
  /-- Abstract models only lend their fields to their subtypes. -/
  isAbstract : Bool := false
  superTypes : List String := []

namespace Model

/-- The first field of the given name. -/
def field? (m : Model) (name : String) : Option Field :=
  m.fields.find? (·.name == name)

/-- All usages of the attribute of the given canonical name. -/
def attributesNamed (m : Model) (name : String) : List Attribute :=
  m.attributes.filter (·.isNamed name)

/-- The first usage of the attribute of the given canonical name. -/
def attribute? (m : Model) (name : String) : Option Attribute :=
  m.attributes.find? (·.isNamed name)

end Model

/-! ## §4. Documents -/

/-- A top-level declaration. -/
inductive Declaration where
  | datasource (block : ConfigBlock)
  | generator (block : ConfigBlock)
  | enum (decl : EnumDecl)
  | model (decl : Model)

namespace Declaration

/-- The name of a declaration. -/
def name : Declaration → String
  | .datasource b => b.name
  | .generator b => b.name
  | .enum e => e.name
  | .model m => m.name

/-- The model, when the declaration is one. -/
def model? : Declaration → Option Model
  | .model m => some m
  | _ => none

end Declaration

/-- A document. -/
structure Document where
  /-- Attribute declarations beside the built-in ones; they replace those of the same name. -/
  attributes : List AttributeDecl := []
  /-- Whether every model already holds the fields it inherits. -/
  flattened : Bool := false
  declarations : List Declaration := []

/-- The models among declarations, in source order. -/
def modelsOf (declarations : List Declaration) : List Model :=
  declarations.filterMap Declaration.model?

end DelegateSchema
