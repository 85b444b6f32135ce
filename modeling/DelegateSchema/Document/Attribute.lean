/-
  DelegateSchema.Document.Attribute — attribute declarations and their usages.

  A usage carries two slots that stay empty until the attribute is resolved: the identity of the
  declaration it stands for, and for each argument the parameter it is bound to.  Later stages
  ask only through these slots, so that an alias and a positional argument look the same as the
  canonical, named form.
-/
import DelegateSchema.Document.Expression

namespace DelegateSchema

/-- The declaration of an attribute. -/
structure AttributeDecl where
  name : String
  /-- Whether the attribute belongs to the target schema language. -/
  target : Bool := false
  /-- The parameter names, in positional order. -/
  params : List String := []
  /-- The attribute this one is another name for. -/
  aliasOf : Option String := none
  deriving DecidableEq

/-- What a usage turned out to mean. -/
structure AttributeIdentity where
  /-- The canonical name. -/
  name : String
  target : Bool
  deriving DecidableEq

/-- An argument of an attribute usage. -/
structure AttributeArg where
  name : Option String
  value : Expression
  /-- The parameter the argument is bound to, once resolved. -/
  param : Option String := none

/-- An attribute usage on a model, a field, an enum or an enum field. -/
structure Attribute where
  /-- The name as written, possibly an alias. -/
  name : String
  args : List AttributeArg := []
  /-- What the usage stands for, once resolved. -/
  resolved : Option AttributeIdentity := none

namespace Attribute

/-- The canonical name; nothing while the usage is unresolved. -/
def canonicalName (a : Attribute) : Option String :=
  a.resolved.map (·.name)

/-- Whether the usage stands for the attribute of the given canonical name. -/
def isNamed (name : String) (a : Attribute) : Bool :=
  a.canonicalName == some name

/-- The value bound to a parameter, whether passed by name or by position. -/
def arg? (a : Attribute) (param : String) : Option Expression :=
  (a.args.find? fun arg => arg.param == some param).map (·.value)

end Attribute

end DelegateSchema
