/-
  DelegateSchema.Schema.Lineage — ancestors and descendants.

  Both upward walks remember the models they have been to, so they end on every schema, also on
  a flattened one whose super types form a cycle.
-/
import DelegateSchema.Schema.Basic

namespace DelegateSchema.Schema

/-! ## §1. Ancestors, nearest first -/

/-- Works off a queue of names: a model not found before is added to `found`, and its super types
    to the end of the queue. -/
def ancestorsFrom (s : Schema) (found : List Model) : (queue : List String) → List Model
  | [] => found
  | name :: queue =>
    if _ : name ∈ found.map (·.name) then s.ancestorsFrom found queue
    else
      match _ : s.model? name with
      | none => s.ancestorsFrom found queue
      | some base => s.ancestorsFrom (base :: found) (queue ++ base.superTypes)
termination_by queue =>
  stepsLeft s.modelNames (found.map (·.name)) (widest s.models) queue.length
decreasing_by
  · apply stepsLeft_lt
    simp
  · apply stepsLeft_lt
    simp
  · have isModel : s.model? name = some base := by assumption
    rw [List.map_cons, name_of_findModel? isModel]
    apply stepsLeft_lt_of_new (name_mem_of_model? isModel) (by assumption)
    have := superTypes_length_le (mem_of_findModel? isModel)
    simp only [List.length_append, List.length_cons]
    omega

/-- All ancestors of a model, nearest first, each of them once. -/
def ancestors (s : Schema) (m : Model) : List Model :=
  (s.ancestorsFrom [] m.superTypes).reverse

/-! ## §2. Descendants -/

/-- Works off a stack of names, the top first, in search of `ancestor`.  The super types of a model
    are pushed in listed order, so the last of them is the next to be seen. -/
def reaches (s : Schema) (ancestor : String) (visited : List String) : (stack : List String) → Bool
  | [] => false
  | name :: stack =>
    if name = ancestor then true
    else if _ : name ∈ visited then s.reaches ancestor visited stack
    else
      match _ : s.model? name with
      | none => s.reaches ancestor (name :: visited) stack
      | some base => s.reaches ancestor (name :: visited) (base.superTypes.reverse ++ stack)
termination_by stack => stepsLeft s.modelNames visited (widest s.models) stack.length
decreasing_by
  · apply stepsLeft_lt
    simp
  · apply stepsLeft_cons_lt
    simp
  · have isModel : s.model? name = some base := by assumption
    apply stepsLeft_lt_of_new (name_mem_of_model? isModel) (by assumption)
    have := superTypes_length_le (mem_of_findModel? isModel)
    simp only [List.length_append, List.length_reverse, List.length_cons]
    omega

/-- Whether a model has an ancestor of the given name. -/
def isDescendantOf (s : Schema) (m : Model) (ancestor : String) : Bool :=
  s.reaches ancestor [] m.superTypes.reverse

/-- The concrete models below `ancestor`, in source order. -/
def descendants (s : Schema) (ancestor : Model) : List Model :=
  s.models.filter fun m => !m.isAbstract && s.isDescendantOf m ancestor.name

/-- The concrete models that list `base` among their super types. -/
def directSubtypes (s : Schema) (base : Model) : List Model :=
  s.models.filter fun m =>
    !m.isAbstract && m.name != base.name && m.superTypes.contains base.name

/-! ## §3. Where an inherited field comes from -/

/-- The delegate that stores an inherited field: the furthest ancestor that is a delegate and has
    a field of that name.  The model that declared the field may be an abstract one above it. -/
def storingDelegate? (s : Schema) (m : Model) (f : Field) : Option Model :=
  if f.inheritedFrom.isSome then
    ((s.ancestors m).filter fun base => base.isDelegate && (base.field? f.name).isSome).getLast?
  else none

/-- Whether a field was declared by a delegate. -/
def isFromDelegate (s : Schema) (f : Field) : Bool :=
  (f.inheritedFrom.bind s.model?).any (·.isDelegate)

/-- The field of a delegate that holds a field of that name of its own, or from a model that is
    no delegate. -/
def ownDelegateField? (s : Schema) (fieldName : String) (base : Model) : Option (Model × Field) :=
  if base.isDelegate then
    match base.field? fieldName with
    | some f => if s.isFromDelegate f then none else some (base, f)
    | none => none
  else none

/-- Searches the models of `todo`, each before its super types, for such a field. -/
def searchUp (s : Schema) (fieldName : String) (visited : List String) :
    (todo : List String) → Option (Model × Field)
  | [] => none
  | name :: todo =>
    match _ : s.model? name with
    | none => s.searchUp fieldName visited todo
    | some base =>
      if _ : name ∈ visited then s.searchUp fieldName visited todo
      else
        match s.ownDelegateField? fieldName base with
        | some found => some found
        | none => s.searchUp fieldName (name :: visited) (base.superTypes ++ todo)
termination_by todo => stepsLeft s.modelNames visited (widest s.models) todo.length
decreasing_by
  · apply stepsLeft_lt
    simp
  · apply stepsLeft_lt
    simp
  · have isModel : s.model? name = some base := by assumption
    apply stepsLeft_lt_of_new (name_mem_of_model? isModel) (by assumption)
    have := superTypes_length_le (mem_of_findModel? isModel)
    simp only [List.length_append, List.length_cons]
    omega

/-- The closest delegate above `start` that holds a field of that name itself, rather than having
    it from a higher delegate. -/
def findUp? (s : Schema) (start : Model) (fieldName : String) : Option (Model × Field) :=
  s.searchUp fieldName [] start.superTypes

end DelegateSchema.Schema
