/-
  DelegateSchema.Schema.Keys — the fields that identify rows and tie relations.

  A key is a field marked as one, or a list of fields named by a model attribute.
-/
import DelegateSchema.Schema.Basic

namespace DelegateSchema

/-- The fields of a model that an array of references names, in order; whatever names no field is
    passed over. -/
def Model.referencedFields (m : Model) : Option Expression → List Field
  | some (.array items) =>
    items.filterMap fun item =>
      match item with
      | .reference target _ => m.field? target
      | _ => none
  | _ => []

/-- The fields listed by the first usage of a model attribute. -/
def Model.listedFields (m : Model) (name : String) : List Field :=
  match m.attribute? name with
  | some a => m.referencedFields (a.arg? "fields")
  | none => []

/-- The identifier: the first field marked `@id`, else the fields of `@@id`. -/
def Model.idFields (m : Model) : List Field :=
  match m.fields.find? (·.hasAttribute "@id") with
  | some f => [f]
  | none => m.listedFields "@@id"

/-- Whether a field identifies rows of the model.  Where no identifier is given the first unique
    field stands in for it, or else the fields of the first `@@unique`. -/
def Model.isIdField (m : Model) (f : Field) : Bool :=
  let listed := m.listedFields "@@id"
  if f.hasAttribute "@id" then true
  else if listed.any (·.name == f.name) then true
  else if m.fields.any (·.hasAttribute "@id") || !listed.isEmpty then false
  else
    match m.fields.find? (·.hasAttribute "@unique") with
    | some first => first.name == f.name
    | none => (m.listedFields "@@unique").any (·.name == f.name)

namespace Schema

/-- The pairs of foreign key and referenced field of a relation. -/
def keyPairs (s : Schema) (m : Model) (f : Field) : List (Field × Field) :=
  match f.attribute? "@relation", s.relationTarget? f with
  | some relation, some target =>
    (m.referencedFields (relation.arg? "fields")).zip
      (target.referencedFields (relation.arg? "references"))
  | _, _ => []

/-- The field of `opposite` that points back at `owner` under the same relation name. -/
def oppositeField? (opposite owner : Model) (f : Field) : Option Field :=
  opposite.fields.find? fun g =>
    g.type.reference == some owner.name && g.relationName? == f.relationName?

end Schema

end DelegateSchema
