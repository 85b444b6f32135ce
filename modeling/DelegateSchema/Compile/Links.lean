/-
  DelegateSchema.Compile.Links — physical links between a delegate and its subtypes.

  A delegate gets one optional relation for each concrete direct subtype.  A subtype gets one
  required relation for each delegate among its super types, tied to the identifier of the
  delegate and following its deletions and updates.
-/
import DelegateSchema.Compile.Basic

namespace DelegateSchema.Job

open Identifier (Asking)

/-- The relation of a delegate to one of its subtypes. -/
def linkToSubtype (concrete : Model) : Asking Target.Field := do
  let name ← Asking.identifier (Text.lowerFirst concrete.name)
  return { name, type := ⟨concrete.name, false, true⟩ }

/-- The relations of a delegate to its subtypes. -/
def linksToSubtypes (j : Job) (m : Model) : Asking (List Target.Field) :=
  if m.isDelegate then (j.schema.directSubtypes m).mapM linkToSubtype else pure []

/-- The delegates among the super types of a model, in listed order. -/
def delegateBases (j : Job) (m : Model) : List Model :=
  (m.superTypes.filterMap j.schema.model?).filter (·.isDelegate)

/-- The name of a link's constraint.  Every subtype has a link of the same name, so it contains
    the name of the model. -/
def linkConstraint (j : Job) (m base : Model) : Asking (List Target.Arg) :=
  if j.schema.namesConstraints then do
    let name ← Asking.identifier (m.name ++ "_" ++ Text.lowerFirst base.name)
    return [.named "map" (.string (name ++ "_fk"))]
  else pure []

/-- The relation of a model to the delegate `base`. -/
def linkToBase (j : Job) (m base : Model) : Asking Target.Field := do
  let keys := Target.Value.fieldRefs (base.idFields.map (·.name))
  let cascade := Target.Value.fieldRef "Cascade"
  let name ← Asking.identifier (Text.lowerFirst base.name)
  let constraint ← j.linkConstraint m base
  let args : List Target.Arg :=
    [.named "fields" keys, .named "references" keys, .named "onDelete" cascade,
     .named "onUpdate" cascade] ++ constraint
  return {
    name
    type := ⟨base.name, false, false⟩
    attributes := [.of "@relation" args] }

/-- The relations of a model to the delegates among its super types. -/
def linksToBases (j : Job) (m : Model) : Asking (List Target.Field) :=
  (j.delegateBases m).mapM (j.linkToBase m)

/-- All links of a model: to its subtypes, then to its bases. -/
def links (j : Job) (m : Model) : Asking (List Target.Field) := do
  let down ← j.linksToSubtypes m
  let up ← j.linksToBases m
  return down ++ up

end DelegateSchema.Job
