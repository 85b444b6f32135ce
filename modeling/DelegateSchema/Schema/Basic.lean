/-
  DelegateSchema.Schema.Basic — resolved schemas.

  A schema is a document whose attribute usages are resolved and whose models hold what they
  inherit.  Resolution checks that model names are distinct and that every super type exists; a
  flattened document brings the inherited fields itself and is not merged again.
-/
import DelegateSchema.Registry.Builtin
import DelegateSchema.Schema.Inheritance

namespace DelegateSchema

/-- A resolved document: its declarations in source order. -/
structure Schema where
  declarations : List Declaration := []

namespace Schema

/-! ## §1. Look-up -/

/-- The models in source order, abstract ones included. -/
def models (s : Schema) : List Model :=
  modelsOf s.declarations

/-- The model of the given name. -/
def model? (s : Schema) (name : String) : Option Model :=
  findModel? s.models name

/-- The names of the models. -/
def modelNames (s : Schema) : List String :=
  s.models.map (·.name)

theorem name_mem_of_model? {s : Schema} {name : String} {m : Model} (h : s.model? name = some m) :
    name ∈ s.modelNames :=
  List.mem_map.2 ⟨m, mem_of_findModel? h, name_of_findModel? h⟩

/-- The provider that a declaration names, when it is a data source that names one. -/
def providerOf? : Declaration → Option String
  | .datasource b => do (← b.entry? "provider").value.asString?
  | _ => none

/-- The provider of the first data source that names one. -/
def provider? (s : Schema) : Option String :=
  s.declarations.findSome? providerOf?

/-- The providers whose constraints can be given names. -/
def namingProviders : List String := ["postgresql", "mysql", "cockroachdb"]

/-- Whether constraints can be given names. -/
def namesConstraints (s : Schema) : Bool :=
  s.provider?.any namingProviders.contains

/-- The model a relation field points to; nothing for scalars and enums. -/
def relationTarget? (s : Schema) (f : Field) : Option Model := do
  s.model? (← f.type.reference)

/-! ## §2. Resolution -/

/-- Refuses the second of two models of one name. -/
def checkNames : (seen : List String) → List Model → Except ResolveError Unit
  | _, [] => .ok ()
  | seen, m :: rest =>
    if seen.contains m.name then .error (.duplicateModel m.name)
    else checkNames (m.name :: seen) rest

/-- Refuses a super type that is no model. -/
def checkSuperTypes (models : List Model) : Except ResolveError Unit :=
  models.forM fun m => m.superTypes.forM fun base =>
    if (findModel? models base).isSome then .ok ()
    else .error (.unknownSuperType m.name base)

/-- Resolves a document. -/
def ofDocument (d : Document) : Except ResolveError Schema := do
  let registry := Registry.standard.registerAll d.attributes
  let declarations ← d.declarations.mapM registry.resolveDeclaration
  let models := modelsOf declarations
  checkNames [] models
  if d.flattened then
    checkSuperTypes models
    return ⟨declarations⟩
  else
    return ⟨← mergeInheritance declarations⟩

end Schema

end DelegateSchema
