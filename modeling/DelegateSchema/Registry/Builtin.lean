/-
  DelegateSchema.Registry.Builtin — the attributes every document knows.

  Attributes of the target schema are carried into the output; the others — access policies,
  validation rules, the delegate mark — stay in it as comments only.
-/
import DelegateSchema.Registry.Basic

namespace DelegateSchema.Registry

/-- The attribute that puts its text into a model block as it is. -/
def modelPassthrough : String := "@@prisma.passthrough"

/-- The attribute that puts its text after a field as it is. -/
def fieldPassthrough : String := "@prisma.passthrough"

/-- An attribute of the target schema. -/
def targetAttribute (name : String) (params : List String) : AttributeDecl :=
  { name, target := true, params }

/-- An attribute that is kept as a comment. -/
def sourceAttribute (name : String) (params : List String) : AttributeDecl :=
  { name, target := false, params }

/-- The built-in attributes. -/
def builtins : List AttributeDecl := [
  -- on fields
  targetAttribute "@id" ["map", "length", "sort", "clustered"],
  targetAttribute "@default" ["value", "map"],
  targetAttribute "@unique" ["map", "length", "sort", "clustered"],
  targetAttribute "@relation" ["name", "fields", "references", "onDelete", "onUpdate", "map"],
  targetAttribute "@map" ["name"],
  targetAttribute "@updatedAt" [],
  targetAttribute "@ignore" [],
  targetAttribute "@db.Text" [],
  targetAttribute "@db.VarChar" ["x"],
  targetAttribute "@db.Uuid" [],
  -- on models
  targetAttribute "@@id" ["fields", "name", "map", "length", "sort", "clustered"],
  targetAttribute "@@unique" ["fields", "name", "map", "length", "sort", "clustered"],
  targetAttribute "@@index" ["fields", "name", "map", "length", "sort", "clustered", "type"],
  targetAttribute "@@fulltext" ["fields", "map"],
  targetAttribute "@@map" ["name"],
  targetAttribute "@@ignore" [],
  targetAttribute "@@schema" ["name"],
  -- verbatim text
  sourceAttribute modelPassthrough ["text"],
  sourceAttribute fieldPassthrough ["text"],
  -- access policies and validation
  sourceAttribute "@@allow" ["operation", "condition"],
  sourceAttribute "@@deny" ["operation", "condition"],
  sourceAttribute "@allow" ["operation", "condition", "override"],
  sourceAttribute "@deny" ["operation", "condition"],
  sourceAttribute "@@validate" ["value", "message", "path"],
  sourceAttribute "@@auth" [],
  sourceAttribute "@@delegate" ["discriminator"],
  sourceAttribute "@@meta" ["name", "value"],
  sourceAttribute "@meta" ["name", "value"],
  sourceAttribute "@password" ["saltLength", "salt"],
  sourceAttribute "@omit" [],
  sourceAttribute "@email" ["message"],
  sourceAttribute "@url" ["message"],
  sourceAttribute "@length" ["min", "max", "message"],
  sourceAttribute "@regex" ["regex", "message"]]

/-- The registry of the built-in attributes. -/
def standard : Registry :=
  Registry.registerAll {} builtins

end DelegateSchema.Registry
