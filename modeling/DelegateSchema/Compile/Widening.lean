/-
  DelegateSchema.Compile.Widening — logical relations to and from the subtypes of a delegate.

  A relation to a delegate is widened: the model gets one more field for each concrete
  descendant.  Where the relation owns foreign keys, these are copied for each descendant too,
  together with every unique constraint that lists one of them.

  Every subtype repeats the relations of its delegate, so the related model would see several
  relations to one field.  Each repetition is named after the related model, its opposite field
  and the subtype: the name that widening gives to the field on the other side.
-/
import DelegateSchema.Compile.Field

namespace DelegateSchema.Job

open Identifier (Asking)

/-! ## §1. Copied keys -/

/-- The fields that an array of references names, with the key `key` replaced by its copy;
    nothing when the array does not name the key. -/
def replaceKey? (key copy : String) (items : List Expression) : Option (List String) :=
  let targets := items.filterMap fun item =>
    match item with
    | .reference target _ => some target
    | _ => none
  if targets.contains key then
    some (targets.map fun target => if target = key then copy else target)
  else none

/-- The unique constraint for a copied key that a constraint on the key gives rise to. -/
def copiedConstraint? (key copy : String) (unique : Attribute) : Option Target.Attribute :=
  match unique.arg? "fields" with
  | some (.array items) =>
    (replaceKey? key copy items).map fun names =>
      .of "@@unique" [.positional (.fieldRefs names)]
  | _ => none

/-- Names the constraint of a unique field. -/
def nameConstraint (constraint : String) (a : Target.NamedAttribute) : Target.NamedAttribute :=
  match a.arg? "map" with
  | some _ => a.setArg "map" (.string constraint)
  | none => a.pushArg (.named "map" (.string constraint))

/-- Copies a foreign key of `m` for the descendant `concrete`; gives the name of the copy. -/
def copyKey (j : Job) (m concrete : Model) (key : Field) (block : Target.ModelBlock) :
    Compile (String × Target.ModelBlock) := do
  let field ← Compile.ofExcept (j.toTargetField m key)
  let name ← Compile.identifier (m.name ++ "_" ++ key.name ++ "_" ++ concrete.name)
  let copy := { field with name }.updateAttribute "@unique" (nameConstraint (name ++ "_unique"))
  let constraints := (m.attributesNamed "@@unique").filterMap (copiedConstraint? key.name name)
  let block := block.addField copy
  return (name, { block with attributes := block.attributes ++ constraints })

/-- Copies foreign keys one after the other; gives the names of the copies. -/
def copyKeys (j : Job) (m concrete : Model) : (keys : List Field) → Target.ModelBlock →
    Compile (List String × Target.ModelBlock)
  | [], block => return ([], block)
  | key :: keys, block => do
    let (name, block) ← j.copyKey m concrete key block
    let (names, block) ← j.copyKeys m concrete keys block
    return (name :: names, block)

/-! ## §2. Widened relations -/

/-- The relation attribute of the field `name` that widens `f` for `concrete`.  A relation without
    foreign keys of its own is taken over; one without any attribute is named after the field. -/
def widenedRelation (j : Job) (m : Model) (f : Field) (concrete : Model) (name : String)
    (block : Target.ModelBlock) : Compile (Target.Attribute × Target.ModelBlock) :=
  match f.attribute? "@relation" with
  | none => return (.of "@relation" [.positional (.string name)], block)
  | some relation =>
    if (relation.arg? "fields").isNone then do
      return (← Compile.ofExcept relation.toTarget, block)
    else do
      let pairs := j.schema.keyPairs m f
      let (keys, block) ← j.copyKeys m concrete (pairs.map (·.1)) block
      let relationName := ((relation.arg? "name").bind (·.asString?)).getD name
      let constraint : List Target.Arg :=
        if j.schema.namesConstraints then [.named "map" (.string (name ++ "_fk"))] else []
      let args : List Target.Arg :=
        [.positional (.string relationName), .named "fields" (.fieldRefs keys),
         .named "references" (.fieldRefs (pairs.map fun pair => pair.2.name))] ++ constraint
      return (.of "@relation" args, block)

/-- Widens a relation field for one descendant. -/
def widenFor (j : Job) (m : Model) (f : Field) (block : Target.ModelBlock) (concrete : Model) :
    Compile Target.ModelBlock := do
  let name ← Compile.identifier (m.name ++ "_" ++ f.name ++ "_" ++ concrete.name)
  let block := block.addField { name, type := ⟨concrete.name, f.type.array, f.type.optional⟩ }
  let (relation, block) ← j.widenedRelation m f concrete name block
  return block.updateField name (·.addAttribute relation)

/-- The descendants that a field is widened for: those of the delegate it points to, unless the
    field itself was inherited from a delegate, where it is widened already. -/
def widenedTo (j : Job) (m : Model) (f : Field) : List Model :=
  if (j.schema.storingDelegate? m f).isSome then []
  else
    match j.schema.relationTarget? f with
    | some target => if target.isDelegate then j.schema.descendants target else []
    | none => []

/-- Widens a field for all its descendants. -/
def widenField (j : Job) (m : Model) (block : Target.ModelBlock) (f : Field) :
    Compile Target.ModelBlock :=
  (j.widenedTo m f).foldlM (j.widenFor m f) block

/-- Widens all fields of a model. -/
def widen (j : Job) (m : Model) (block : Target.ModelBlock) : Compile Target.ModelBlock :=
  m.fields.foldlM (j.widenField m) block

/-! ## §3. Names of inherited relations -/

/-- The opposite side of an inherited relation: the related model and its field. -/
def inheritedOpposite? (j : Job) (m : Model) (f : Field) : Option (Model × Field) := do
  let related ← j.schema.relationTarget? f
  let _ ← f.inheritedFrom
  let (base, baseField) ← j.schema.findUp? m f.name
  let opposite ← Schema.oppositeField? related base baseField
  return (related, opposite)

/-- Gives the relation of the compiled field `target` the name `name`, unless `f` names its
    relation itself. -/
def nameRelation (f : Field) (name : String) (target : Target.Field) : Target.Field :=
  match f.attribute? "@relation" with
  | some relation =>
    if (relation.arg? "name").isSome then target
    else
      target.updateAttribute "@relation" fun a =>
        { a with args := .positional (.string name) :: a.args }
  | none => target.addAttribute (.of "@relation" [.positional (.string name)])

/-- Names the relation of one field, if it is inherited from a delegate and has another side. -/
def nameInherited (j : Job) (m : Model) (block : Target.ModelBlock) (f : Field) :
    Asking Target.ModelBlock :=
  match j.inheritedOpposite? m f with
  | none => pure block
  | some (related, opposite) =>
    if (block.field? f.name).isNone then pure block
    else do
      let name ← Asking.identifier (related.name ++ "_" ++ opposite.name ++ "_" ++ m.name)
      return block.updateField f.name (nameRelation f name)

/-- Names all inherited relations of a model. -/
def nameRelations (j : Job) (m : Model) (block : Target.ModelBlock) : Asking Target.ModelBlock :=
  m.fields.foldlM (j.nameInherited m) block

end DelegateSchema.Job
