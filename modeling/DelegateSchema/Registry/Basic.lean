/-
  DelegateSchema.Registry.Basic — attribute declarations by name, and what a usage stands for.

  A later declaration of a name replaces an earlier one.  An alias is followed from declaration
  to declaration until one that is no alias; the walk remembers the declarations it has left, so
  it ends on every registry.
-/
import DelegateSchema.Document.Declaration
import DelegateSchema.Visits

namespace DelegateSchema

/-! ## §1. Faults of a document -/

/-- Why a document does not resolve. -/
inductive ResolveError where
  /-- A model lists a super type that is no model. -/
  | unknownSuperType (model superType : String)
  /-- A model is its own ancestor. -/
  | inheritanceCycle (model : String)
  /-- An alias leads to an attribute that is not declared. -/
  | unknownAlias (name target : String)
  /-- An alias never ends. -/
  | aliasCycle (name : String)
  /-- Two models have one name. -/
  | duplicateModel (name : String)
  /-- A model to be merged is not declared. -/
  | unknownModel (name : String)
  deriving DecidableEq

/-- The wording of a fault. -/
def ResolveError.message : ResolveError → String
  | .unknownSuperType model superType =>
    "Model `" ++ model ++ "` extends unknown model `" ++ superType ++ "`"
  | .inheritanceCycle model => "Inheritance cycle detected at model `" ++ model ++ "`"
  | .unknownAlias name target =>
    "Attribute `" ++ name ++ "` is an alias of unknown attribute `" ++ target ++ "`"
  | .aliasCycle name => "Attribute alias cycle detected at `" ++ name ++ "`"
  | .duplicateModel name =>
    "Invalid model document: Duplicate model name: " ++ name ++
      "\n  Context: While resolving model declarations"
  | .unknownModel name =>
    "Invalid model document: Unknown model: " ++ name ++
      "\n  Context: While merging inherited fields"

/-! ## §2. Registries -/

/-- The declared attributes, the latest first. -/
structure Registry where
  decls : List AttributeDecl := []

namespace Registry

/-- The declaration in force under a name. -/
def get? (r : Registry) (name : String) : Option AttributeDecl :=
  r.decls.find? (·.name == name)

/-- Adds a declaration, which replaces one of the same name. -/
def register (r : Registry) (decl : AttributeDecl) : Registry :=
  ⟨decl :: r.decls⟩

/-- Adds declarations one after the other. -/
def registerAll (r : Registry) (decls : List AttributeDecl) : Registry :=
  decls.foldl register r

/-- The names in use. -/
def names (r : Registry) : List String :=
  r.decls.map (·.name)

theorem name_mem_of_get? {r : Registry} {name : String} {decl : AttributeDecl}
    (h : r.get? name = some decl) : decl.name ∈ r.names :=
  List.mem_map.2 ⟨decl, List.mem_of_find?_eq_some h, rfl⟩

/-! ## §3. Canonical declarations -/

/-- Follows the alias of `decl` to a declaration that is no alias.  `visited` holds the names of
    the declarations left behind, `origin` the name the walk started from. -/
def follow (r : Registry) (origin : String) (visited : List String) (decl : AttributeDecl)
    (_ : decl.name ∈ r.names) : Except ResolveError AttributeDecl :=
  match decl.aliasOf with
  | none => .ok decl
  | some target =>
    if _ : decl.name ∈ visited then .error (.aliasCycle origin)
    else
      match found : r.get? target with
      | none => .error (.unknownAlias decl.name target)
      | some next => follow r origin (decl.name :: visited) next (name_mem_of_get? found)
termination_by unvisited r.names visited
decreasing_by exact unvisited_cons_lt ‹decl.name ∈ r.names› ‹decl.name ∉ visited›

/-- The declaration that a name stands for; nothing when the name is not declared. -/
def canonical (r : Registry) (name : String) : Except ResolveError (Option AttributeDecl) :=
  match found : r.get? name with
  | none => .ok none
  | some decl => (r.follow name [] decl (name_mem_of_get? found)).map some

/-! ## §4. Usages -/

/-- Binds arguments to parameters: a named argument to its name, the unnamed ones to the
    positional parameters in order. -/
def bindArgs : (params : List String) → List AttributeArg → List AttributeArg
  | _, [] => []
  | params, arg :: rest =>
    match arg.name with
    | some name => { arg with param := some name } :: bindArgs params rest
    | none => { arg with param := params.head? } :: bindArgs params.tail rest

/-- Finds out what the usage at hand stands for, and fills its slots.  The look-up is all that can
    fail, and it comes first; an undeclared name leaves the usage as it is. -/
def resolveInPlace (r : Registry) : EStateM ResolveError Attribute Unit := do
  match r.canonical (← get).name with
  | .error fault => throw fault
  | .ok none => return
  | .ok (some decl) =>
    modify fun a => { a with args := bindArgs decl.params a.args }
    modify fun a => { a with resolved := some ⟨decl.name, decl.target⟩ }

/-- A usage after its resolution. -/
def resolve (r : Registry) (a : Attribute) : Except ResolveError Attribute :=
  match r.resolveInPlace.run a with
  | .ok _ a => .ok a
  | .error fault _ => .error fault

/-- Resolves a list of usages, in order. -/
def resolveAll (r : Registry) (attributes : List Attribute) :
    Except ResolveError (List Attribute) :=
  attributes.mapM r.resolve

/-- Resolves the usages on a declaration: its own, then those of its fields. -/
def resolveDeclaration (r : Registry) : Declaration → Except ResolveError Declaration
  | .enum e => do
    let attributes ← r.resolveAll e.attributes
    let fields ← e.fields.mapM fun f => do
      return { f with attributes := ← r.resolveAll f.attributes }
    return .enum { e with attributes, fields }
  | .model m => do
    let attributes ← r.resolveAll m.attributes
    let fields ← m.fields.mapM fun f => do
      return { f with attributes := ← r.resolveAll f.attributes }
    return .model { m with attributes, fields }
  | decl => .ok decl

end Registry

end DelegateSchema
