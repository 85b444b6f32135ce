/-
  DelegateSchema.Schema.Inheritance — models with the fields of their super types.

  A merged model holds the fields of its merged super types, in listed order, before its own; a
  field it declares itself, or has from an earlier super type, hides the later ones of that name.
  An inherited field remembers the model that declared it.  Attributes are inherited too, except
  those that mean one table only.

  The merge goes through the declarations and puts each merged model in the place of the original.
  It remembers the models it has merged, so none is merged twice, and those it is in the middle of;
  being asked for one of these again is a cycle.
-/
import DelegateSchema.Registry.Basic

namespace DelegateSchema

/-! ## §1. What is inherited -/

/-- The attributes no subtype inherits. -/
def neverInherited : List String := ["@@delegate", "@@map"]

/-- The attributes not inherited from a delegate, because they hold on its own table. -/
def keptByDelegate : List String := ["@@unique", "@@index", "@@fulltext"]

/-- Whether a subtype inherits an attribute of `base`. -/
def Model.passesOn (base : Model) (a : Attribute) : Bool :=
  match a.canonicalName with
  | none => true
  | some name => !neverInherited.contains name && !(base.isDelegate && keptByDelegate.contains name)

/-- The field as a subtype of `base` has it. -/
def Field.inheritedVia (base : String) (f : Field) : Field :=
  { f with inheritedFrom := f.inheritedFrom.or (some base) }

/-- What a model has from its super types. -/
structure Inherited where
  fields : List Field := []
  attributes : List Attribute := []

/-- Adds a field of the merged super type `base`, unless its name is taken. -/
def Inherited.addField (own : Model) (base : String) (fields : List Field) (f : Field) :
    List Field :=
  if own.fields.any (·.name == f.name) || fields.any (·.name == f.name) then fields
  else fields ++ [f.inheritedVia base]

/-- Adds what `own` has from the merged super type `base`. -/
def Inherited.absorb (own : Model) (sofar : Inherited) (base : Model) : Inherited where
  fields := base.fields.foldl (Inherited.addField own base.name) sofar.fields
  attributes := sofar.attributes ++ base.attributes.filter base.passesOn

/-- The model together with what it inherits. -/
def Model.withInherited (m : Model) (inherited : Inherited) : Model :=
  { m with
    fields := inherited.fields ++ m.fields
    attributes := m.attributes ++ inherited.attributes }

/-! ## §2. Originals -/

/-- The first model of the given name. -/
def findModel? (models : List Model) (name : String) : Option Model :=
  models.find? (·.name == name)

theorem mem_of_findModel? {models : List Model} {name : String} {m : Model}
    (h : findModel? models name = some m) : m ∈ models :=
  List.mem_of_find?_eq_some h

theorem name_of_findModel? {models : List Model} {name : String} {m : Model}
    (h : findModel? models name = some m) : m.name = name := by
  simpa using List.find?_some h

/-- The most super types that one of the models lists. -/
def widest : List Model → Nat
  | [] => 0
  | m :: rest => max m.superTypes.length (widest rest)

theorem superTypes_length_le {models : List Model} {m : Model} (h : m ∈ models) :
    m.superTypes.length ≤ widest models := by
  induction models with
  | nil => cases h
  | cons first rest ih =>
    rcases List.mem_cons.1 h with same | later
    · rw [same]
      exact Nat.le_max_left _ _
    · exact Nat.le_trans (ih later) (Nat.le_max_right _ _)

/-! ## §3. The merge -/

/-- What the merge remembers. -/
structure MergeState where
  /-- The models merged so far, by name. -/
  merged : List (String × Model) := []
  /-- The models whose super types are being merged. -/
  visiting : List String := []

namespace MergeState

/-- Begins with the super types of the model `name`. -/
def enter (st : MergeState) (name : String) : MergeState :=
  { st with visiting := name :: st.visiting }

/-- A result, and what is remembered with it: the merge is in the middle of the same models as
    before. -/
structure After (st : MergeState) (α : Type) where
  result : α
  state : MergeState
  visiting_eq : state.visiting = st.visiting

variable {st : MergeState}

/-- Ends with the super types of `original`, and remembers it with what it has from them. -/
def After.leave {name : String} (bases : (st.enter name).After Inherited) (original : Model) :
    st.After Model where
  result := original.withInherited bases.result
  state :=
    { merged := (name, original.withInherited bases.result) :: bases.state.merged
      visiting := bases.state.visiting.erase name }
  visiting_eq := by
    rw [bases.visiting_eq]
    exact List.erase_cons_head name st.visiting

/-- What comes after `first`, seen from before it. -/
def After.followedBy {α β : Type} (first : st.After α) (rest : first.state.After β) :
    st.After β where
  result := rest.result
  state := rest.state
  visiting_eq := rest.visiting_eq.trans first.visiting_eq

end MergeState

mutual

/-- The model `name` with everything it inherits. -/
def mergeNamed (models : List Model) (st : MergeState) (name : String) :
    Except ResolveError (st.After Model) :=
  match st.merged.lookup name with
  | some done => .ok ⟨done, st, rfl⟩
  | none =>
    match _ : findModel? models name with
    | none => .error (.unknownModel name)
    | some original =>
      if _ : name ∈ st.visiting then .error (.inheritanceCycle name)
      else do
        let bases ← mergeListed models original (st.enter name) {} original.superTypes
        return bases.leave original
termination_by stepsLeft (models.map (·.name)) st.visiting (widest models) 0
decreasing_by
  have found : findModel? models name = some original := by assumption
  have declared := List.mem_map.2 ⟨original, mem_of_findModel? found, name_of_findModel? found⟩
  apply stepsLeft_lt_of_new declared ‹name ∉ st.visiting›
  have := superTypes_length_le (mem_of_findModel? found)
  omega

/-- Merges the super types `bases` of `own` and adds what it has from them to `sofar`. -/
def mergeListed (models : List Model) (own : Model) (st : MergeState) (sofar : Inherited) :
    (bases : List String) → Except ResolveError (st.After Inherited)
  | [] => .ok ⟨sofar, st, rfl⟩
  | base :: bases =>
    if (findModel? models base).isSome then do
      let first ← mergeNamed models st base
      let rest ← mergeListed models own first.state (sofar.absorb own first.result) bases
      return first.followedBy rest
    else .error (.unknownSuperType own.name base)
termination_by bases =>
  stepsLeft (models.map (·.name)) st.visiting (widest models) (bases.length + 1)
decreasing_by
  · apply stepsLeft_lt
    omega
  · rw [first.visiting_eq]
    apply stepsLeft_lt
    simp

end

/-- Puts the merged model in the place `i` of its declaration; models without super types and other
    declarations stay. -/
def mergeAt (models : List Model) (now : List Declaration × MergeState) (i : Nat) :
    Except ResolveError (List Declaration × MergeState) :=
  match now.1[i]? with
  | some (.model m) =>
    if m.superTypes.isEmpty then .ok now
    else do
      let after ← mergeNamed models now.2 m.name
      return (now.1.set i (.model after.result), after.state)
  | _ => .ok now

/-- Merges the models among the declarations, one after the other; what they inherit is read from
    the originals. -/
def mergeInheritance (declarations : List Declaration) :
    Except ResolveError (List Declaration) := do
  let (merged, _) ← (List.range declarations.length).foldlM (mergeAt (modelsOf declarations))
    (declarations, {})
  return merged

end DelegateSchema
