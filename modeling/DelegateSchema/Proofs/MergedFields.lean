/-
  DelegateSchema.Proofs.MergedFields — a merged model has exactly the fields that it should.

  Which field a model has under a name can be said without the merge: its own first field of that
  name, or else what the first of its super types has that has one (`lookUp?`).  The merge works
  the other way, from lists of fields that were merged before and marked on the way.  Both give the
  same field, for every hierarchy: `merge_gives_inherited_fields`.

  Main results:
    * `field?_withInherited` — one step: a merged model has its own field or that of the first of
      its merged super types,
    * `Document.lookUp?_eq` — the search obeys its equation where super types run in no circle,
    * `inheritsFrom_lookUp?` — from both, by induction up the super types, the two agree.
-/
import DelegateSchema.Proofs.Resolution
import Mathlib.Data.List.Nodup

namespace DelegateSchema

open Relation

/-! ## §1. The first field of a name -/

theorem Model.field?_eq_none_iff (m : Model) (name : String) :
    m.field? name = none ↔ name ∉ m.fieldNames := by
  rw [← m.field?_isSome_iff, Option.isSome_iff_ne_none, not_not]

namespace Inherited

variable {own : Model} {name : String}

/-- Taking over the fields of one super type keeps what was there under a name, and adds the first
    field of that name otherwise. -/
theorem find?_foldl_addField (undeclared : name ∉ own.fieldNames) (base : String)
    (fields gs : List Field) :
    (gs.foldl (addField own base) fields).find? (·.name == name) =
      (fields.find? (·.name == name)).or
        ((gs.find? (·.name == name)).map (·.inheritedVia base)) := by
  induction gs generalizing fields with
  | nil => simp
  | cons g gs ih =>
    rw [List.foldl_cons, ih]
    by_cases here : g.name = name
    · rw [List.find?_cons_of_pos (by simpa using here)]
      rcases addField_cases own base fields g with ⟨same, taken⟩ | ⟨added, _, new⟩
      · -- the name is taken by a field that was there before
        obtain ⟨f, found⟩ : ∃ f, fields.find? (·.name == name) = some f := by
          rw [here] at taken
          obtain ⟨f, hf, named⟩ := List.mem_map.1 (taken.resolve_left undeclared)
          exact Option.isSome_iff_exists.1 (List.find?_isSome.2 ⟨f, hf, by simpa using named⟩)
        rw [same, found]
        rfl
      · have free : fields.find? (·.name == name) = none := by
          rw [List.find?_eq_none]
          intro f hf named
          exact new (List.mem_map.2 ⟨f, hf, by rw [here]; simpa using named⟩)
        have isAdded : (g.inheritedVia base).name = name := here
        rw [added, List.find?_append, free]
        simp [isAdded]
    · rw [List.find?_cons_of_neg (by simpa using here)]
      rcases addField_cases own base fields g with ⟨same, _⟩ | ⟨added, _, _⟩
      · rw [same]
      · have other : (g.inheritedVia base).name ≠ name := here
        rw [added, List.find?_append]
        simp [other]

theorem find?_foldl_absorb (undeclared : name ∉ own.fieldNames) (bases : List Model)
    (sofar : Inherited) :
    (bases.foldl (absorb own) sofar).fields.find? (·.name == name) =
      (sofar.fields.find? (·.name == name)).or
        (bases.findSome? fun base => (base.field? name).map (·.inheritedVia base.name)) := by
  induction bases generalizing sofar with
  | nil => simp
  | cons base bases ih =>
    have step : (sofar.absorb own base).fields.find? (·.name == name) =
        (sofar.fields.find? (·.name == name)).or
          ((base.field? name).map (·.inheritedVia base.name)) :=
      find?_foldl_addField undeclared base.name sofar.fields base.fields
    rw [List.foldl_cons, ih, step, List.findSome?_cons, Option.or_assoc]
    cases base.field? name with
    | none => rfl
    | some f => rfl

end Inherited

/-- **One step of the merge**: under every name, a model has its own first field, or else the field
    of the first of its merged super types that has one. -/
theorem field?_withInherited (own : Model) (bases : List Model) (name : String) :
    (own.withInherited (Inherited.ofBases own bases)).field? name =
      (own.field? name).or
        (bases.findSome? fun base => (base.field? name).map (·.inheritedVia base.name)) := by
  show ((Inherited.ofBases own bases).fields ++ own.fields).find? (·.name == name) = _
  rw [List.find?_append]
  cases declared : own.field? name with
  | some f =>
    have takenOver : (Inherited.ofBases own bases).fields.find? (·.name == name) = none := by
      rw [List.find?_eq_none]
      intro g hg named
      have isName : g.name = name := by simpa using named
      have declares : name ∈ own.fieldNames :=
        (own.field?_isSome_iff name).1 (by rw [declared]; rfl)
      exact (Inherited.sound_ofBases own bases).undeclared g hg (isName ▸ declares)
    rw [takenOver]
    exact declared
  | none =>
    have undeclared := (own.field?_eq_none_iff name).1 declared
    have lacks : own.fields.find? (·.name == name) = none := declared
    rw [lacks, Option.or_none, Option.none_or]
    exact Inherited.find?_foldl_absorb undeclared bases {}

theorem fieldNames_withInherited (own : Model) (inherited : Inherited) :
    (own.withInherited inherited).fieldNames =
      inherited.fields.map (·.name) ++ own.fieldNames :=
  List.map_append

/-- A name that is taken over occurs once in the merged model. -/
theorem count_inherited {own : Model} {bases : List Model} {f : Field}
    (hf : f ∈ (Inherited.ofBases own bases).fields) :
    (own.withInherited (Inherited.ofBases own bases)).fieldNames.count f.name = 1 := by
  have sound := Inherited.sound_ofBases own bases
  rw [fieldNames_withInherited, List.count_append,
    List.count_eq_one_of_mem sound.distinct (List.mem_map.2 ⟨f, hf, rfl⟩),
    List.count_eq_zero_of_not_mem (sound.undeclared f hf)]

theorem nodup_fieldNames_withInherited {own : Model} (bases : List Model)
    (distinct : own.fieldNames.Nodup) :
    (own.withInherited (Inherited.ofBases own bases)).fieldNames.Nodup := by
  have sound := Inherited.sound_ofBases own bases
  rw [fieldNames_withInherited, List.nodup_append]
  refine ⟨sound.distinct, distinct, ?_⟩
  intro name taken name' declared same
  obtain ⟨f, hf, rfl⟩ := List.mem_map.1 taken
  exact sound.undeclared f hf (same ▸ declared)

/-! ## §2. The search for a field -/

/-- The field that the model `model` has under a name, with the model that declares it: its own
    first field of that name, or else what the first super type has, in listed order, that has
    one.  The search never enters a model of `path` again. -/
def lookUp? (models : List Model) (name : String) (path : List String) (model : String) :
    Option (Model × Field) :=
  if _ : model ∈ path then none
  else
    match _ : findModel? models model with
    | none => none
    | some m =>
      match m.field? name with
      | some f => some (m, f)
      | none => m.superTypes.findSome? fun base => lookUp? models name (model :: path) base
termination_by unvisited (models.map (·.name)) path
decreasing_by
  have found : findModel? models model = some m := by assumption
  refine unvisited_cons_lt (List.mem_map.2 ⟨m, mem_of_findModel? found, ?_⟩) (by assumption)
  exact name_of_findModel? found

section Search

variable {models : List Model} {name model : String}

theorem lookUp?_of_missing {path : List String} (missing : findModel? models model = none) :
    lookUp? models name path model = none := by
  rw [lookUp?]
  split
  next => rfl
  next =>
    split
    next => rfl
    next found =>
      rw [missing] at found
      cases found

theorem lookUp?_of_findModel? {path : List String} {m : Model} (new : model ∉ path)
    (found : findModel? models model = some m) :
    lookUp? models name path model =
      ((m.field? name).map (m, ·)).or
        (m.superTypes.findSome? fun base => lookUp? models name (model :: path) base) := by
  rw [lookUp?, dif_neg new]
  split
  next missing =>
    rw [found] at missing
    cases missing
  next m' found' =>
    rw [found] at found'
    cases found'
    split
    next f declared => rw [declared]; rfl
    next declared => rw [declared]; rfl

/-- Where super types run in no circle, the path of a search that came from below is no
    hindrance. -/
theorem lookUp?_path (grounded : WellFounded (Listed models)) {path : List String}
    (below : ∀ x ∈ path, ¬ ReflTransGen (Listed models) x model) :
    lookUp? models name path model = lookUp? models name [] model := by
  induction model using grounded.induction generalizing path with
  | h model ih =>
    have new : model ∉ path := fun seen => below model seen ReflTransGen.refl
    cases found : findModel? models model with
    | none => rw [lookUp?_of_missing found, lookUp?_of_missing found]
    | some m =>
      -- nothing above the model leads back to it, so both searches go on as from an empty path
      have above : ∀ path : List String,
          (∀ x ∈ path, ¬ ReflTransGen (Listed models) x model) → ∀ base ∈ m.superTypes,
          lookUp? models name (model :: path) base = lookUp? models name [] base := by
        intro path below base listed
        have step : Listed models base model := ⟨m, found, listed⟩
        refine ih base step ?_
        intro x hx up
        rcases List.mem_cons.1 hx with rfl | hx
        · exact grounded.transGen.irrefl.irrefl x (TransGen.tail' up step)
        · exact below x hx (up.tail step)
      rw [lookUp?_of_findModel? new found, lookUp?_of_findModel? List.not_mem_nil found]
      rw [← List.head?_filterMap, ← List.head?_filterMap, List.filterMap_congr (above path below),
        List.filterMap_congr (above [] fun _ h => nomatch h)]

end Search

/-- The field that a model of the document has under a name, with the model that declares it. -/
def Document.lookUp? (d : Document) (model name : String) : Option (Model × Field) :=
  DelegateSchema.lookUp? (modelsOf d.declarations) name [] model

section Documents

variable {d : Document} {s : Schema}

theorem Document.grounded (h : Schema.ofDocument d = .ok s) (plain : d.flattened = false) :
    WellFounded (Listed (modelsOf d.declarations)) := by
  obtain ⟨_, _, merges⟩ := Schema.merges_of_ofDocument h plain
  refine Subrelation.wf ?_ merges.grounded
  intro base name ⟨m, found, listed⟩
  exact Schema.lists_of_extends h plain
    ⟨m, mem_of_findModel? found, name_of_findModel? found, listed⟩

/-- **The equation of the search.** -/
theorem Document.lookUp?_eq (h : Schema.ofDocument d = .ok s) (plain : d.flattened = false)
    {m : Model} (hm : m ∈ modelsOf d.declarations) (name : String) :
    d.lookUp? m.name name =
      ((m.field? name).map (m, ·)).or (m.superTypes.findSome? (d.lookUp? · name)) := by
  have grounded := Document.grounded h plain
  have distinct := Schema.modelNames_nodup_of_ofDocument h
  rw [Schema.modelNames_eq_declared h plain] at distinct
  have found := findModel?_of_mem distinct hm
  unfold Document.lookUp?
  rw [lookUp?_of_findModel? List.not_mem_nil found, ← List.head?_filterMap, ← List.head?_filterMap]
  refine congrArg _ (congrArg _ (List.filterMap_congr ?_))
  intro base listed
  have step : Listed (modelsOf d.declarations) base m.name := ⟨m, found, listed⟩
  refine lookUp?_path grounded ?_
  intro x hx up
  rw [List.mem_singleton.1 hx] at up
  exact grounded.transGen.irrefl.irrefl m.name (TransGen.tail' up step)

end Documents

/-! ## §3. The merge agrees with the search -/

/-- The field `f` is what the search found, as the model `model` has it: its usages are resolved,
    and it is marked with the model that declares it, unless that is `model` itself. -/
structure Document.Inherits (d : Document) (model : String) (found : Model × Field) (f : Field) :
    Prop where
  name : f.name = found.2.name
  type : f.type = found.2.type
  attributes : d.registry.resolveAll found.2.attributes = .ok f.attributes
  comments : f.comments = found.2.comments
  origin : f.inheritedFrom = if found.1.name = model then none else some found.1.name

section Agreement

variable {d : Document} {s : Schema}

theorem Document.Inherits.own {c : Model} {g f : Field} (resolves : d.registry.ResolvesField g f)
    (unmarked : g.inheritedFrom = none) : d.Inherits c.name (c, g) f := by
  obtain ⟨usages, all, rfl⟩ := resolves
  exact ⟨rfl, rfl, mapM_ok_iff.2 all, rfl, by rw [if_pos rfl]; exact unmarked⟩

/-- A field is marked at the first step down and keeps its mark from there on. -/
theorem Document.Inherits.via {base model : String} {found : Model × Field} {f : Field}
    (h : d.Inherits base found f) (other : found.1.name ≠ model) :
    d.Inherits model found (f.inheritedVia base) := by
  refine ⟨h.name, h.type, h.attributes, h.comments, ?_⟩
  show f.inheritedFrom.or (some base) = _
  rw [h.origin, if_neg other]
  split
  next here => rw [here]; rfl
  next => rfl

/-- The field `f` is what the search found, and the model that declares it is `model` or above. -/
def Document.InheritsFrom (d : Document) (s : Schema) (model : String) (found : Model × Field)
    (f : Field) : Prop :=
  d.Inherits model found f ∧ ReflTransGen s.Lists model found.1.name

/-- What holds of a super type holds one step below. -/
theorem Document.inheritsFrom_below {base model : String} {found? : Option (Model × Field)}
    {f? : Option Field} (above : Option.Rel (d.InheritsFrom s base) found? f?)
    (step : s.Lists model base) (acyclic : ¬ s.Below model model) :
    Option.Rel (d.InheritsFrom s model) found? (f?.map (·.inheritedVia base)) := by
  cases above with
  | none => exact Option.Rel.none
  | @some found f inherits =>
    have other : found.1.name ≠ model := by
      intro circle
      have back := inherits.2
      rw [circle] at back
      exact acyclic (TransGen.head' step back)
    exact Option.Rel.some ⟨inherits.1.via other, ReflTransGen.head step inherits.2⟩

/-- **The merge gives what the search finds.**  The induction goes up the super types. -/
theorem inheritsFrom_lookUp? (h : Schema.ofDocument d = .ok s) (plain : d.flattened = false)
    (unmarked : ∀ m ∈ modelsOf d.declarations, ∀ f ∈ m.fields, f.inheritedFrom = none)
    {c m : Model} (hc : c ∈ modelsOf d.declarations) (hm : s.model? c.name = some m)
    (name : String) :
    Option.Rel (d.InheritsFrom s c.name) (d.lookUp? c.name name) (m.field? name) := by
  obtain ⟨_, _, merges⟩ := Schema.merges_of_ofDocument h plain
  generalize isName : c.name = model
  induction model using merges.grounded.induction generalizing c m with
  | h model ih =>
    subst isName
    obtain ⟨u, bases, resolves, found, isModel⟩ := Schema.exists_merged h plain hc
    rw [hm] at isModel
    cases isModel
    rw [Document.lookUp?_eq h plain hc, field?_withInherited]
    cases declared : c.field? name with
    | some g =>
      have named : ∀ f f', d.registry.ResolvesField f f' → (f.name == name) = (f'.name == name) := by
        intro f f' ⟨_, _, same⟩
        rw [same]
      obtain ⟨f, own, resolvesField⟩ := forall₂_find? resolves.fields named declared
      rw [show u.field? name = some f from own]
      refine Option.Rel.some ⟨Document.Inherits.own resolvesField ?_, ReflTransGen.refl⟩
      exact unmarked c hc g (Model.mem_of_field? declared)
    | none =>
      have undeclared : u.field? name = none := by
        rw [Model.field?_eq_none_iff, resolves.fieldNames_eq, ← Model.field?_eq_none_iff]
        exact declared
      rw [undeclared, Option.map_none, Option.none_or, Option.none_or]
      rw [resolves.superTypes_eq] at found
      have listed := (List.forall₂_and_left c.superTypes bases).2
        ⟨fun base (h : base ∈ c.superTypes) => h, found⟩
      refine forall₂_findSome? listed ?_
      intro base b ⟨hbase, hb⟩
      have step : s.Lists c.name base := Schema.lists_of_extends h plain ⟨c, hc, rfl, hbase⟩
      -- the super type is declared too, so the induction hypothesis speaks of it
      have known := Schema.name_mem_of_model? hb
      rw [Schema.modelNames_eq_declared h plain] at known
      obtain ⟨cb, hcb, isBase⟩ := List.mem_map.1 known
      rw [show b.name = base from name_of_findModel? hb]
      exact Document.inheritsFrom_below (ih base step hcb (isBase ▸ hb) isBase) step
        (merges.not_below_self c.name)

/-- **A merged model has exactly the fields that it declares or inherits.**  In a document that
    resolves, and whose own fields carry no marks, the search for a field obeys its equation, and
    the merged model of every declared model `c` is as follows.  It ends with the fields of `c`
    itself, and every name before these occurs once.  It has a field of a name exactly when the
    search finds one, and its first field of that name is the one found, marked with the model
    that declares it unless that is `c`.  If the names that `c` declares are distinct, so are all
    names that it has. -/
theorem merge_gives_inherited_fields (resolved : Schema.ofDocument d = .ok s)
    (plain : d.flattened = false)
    (unmarked : ∀ m ∈ modelsOf d.declarations, ∀ f ∈ m.fields, f.inheritedFrom = none)
    {c : Model} (hc : c ∈ modelsOf d.declarations) :
    (∀ name, d.lookUp? c.name name =
      ((c.field? name).map (c, ·)).or (c.superTypes.findSome? (d.lookUp? · name))) ∧
    ∃ m, s.model? c.name = some m ∧
      (∃ inherited own, m.fields = inherited ++ own ∧
        List.Forall₂ d.registry.ResolvesField c.fields own ∧
        ∀ f ∈ inherited, m.fieldNames.count f.name = 1) ∧
      (∀ name, name ∈ m.fieldNames ↔ (d.lookUp? c.name name).isSome = true) ∧
      (∀ name found, d.lookUp? c.name name = some found →
        ∃ f, m.field? name = some f ∧ d.Inherits c.name found f) ∧
      (c.fieldNames.Nodup → m.fieldNames.Nodup) := by
  refine ⟨Document.lookUp?_eq resolved plain hc, ?_⟩
  obtain ⟨u, bases, resolves, _, isModel⟩ := Schema.exists_merged resolved plain hc
  have agrees := inheritsFrom_lookUp? resolved plain unmarked hc isModel
  refine ⟨_, isModel, ⟨_, u.fields, rfl, resolves.fields, fun f hf => count_inherited hf⟩, ?_, ?_, ?_⟩
  · intro name
    rw [← Model.field?_isSome_iff, rel_isSome (agrees name)]
  · intro name found hfound
    obtain ⟨f, hf, inherits, _⟩ := rel_exists_right (agrees name) hfound
    exact ⟨f, hf, inherits⟩
  · intro distinct
    rw [← resolves.fieldNames_eq] at distinct
    exact nodup_fieldNames_withInherited bases distinct

end Agreement

/-- Yo-yos are tools and toys. -/
def yoyo : Model where
  name := "Yoyo"
  fields := [{ name := "length", type := { scalar := some "Int" } }]
  superTypes := ["Tool", "Toy"]

/-- Tools and toys are things, and toys have labels of their own. -/
def workshop : Document where
  declarations := [
    .model {
      name := "Thing"
      isAbstract := true
      fields := [
        { name := "id", type := { scalar := some "Int" }, attributes := [{ name := "@id" }] },
        { name := "label", type := { scalar := some "String" } }] },
    .model { name := "Tool", superTypes := ["Thing"] },
    .model {
      name := "Toy"
      fields := [{ name := "label", type := { scalar := some "Int" } }]
      superTypes := ["Thing"] },
    .model yoyo]

/-- A yo-yo has the label of all things, which it has through the tools, and not that of the toys;
    its names are distinct. -/
theorem yoyo_has_label_of_things :
    ∃ (s : Schema) (m : Model) (found : Model × Field) (f : Field),
      Schema.ofDocument workshop = .ok s ∧ s.model? "Yoyo" = some m ∧
      workshop.lookUp? "Yoyo" "label" = some found ∧ found.1.name = "Thing" ∧
      m.field? "label" = some f ∧ workshop.Inherits "Yoyo" found f ∧ m.fieldNames.Nodup := by
  have resolves : (Schema.ofDocument workshop).toOption.isSome = true := by decide +kernel
  have finds : (workshop.lookUp? "Yoyo" "label").any (·.1.name == "Thing") = true := by
    decide +kernel
  have unmarked : ∀ m ∈ modelsOf workshop.declarations, ∀ f ∈ m.fields,
      f.inheritedFrom = none := by decide
  have declared : yoyo ∈ modelsOf workshop.declarations := by
    simp [modelsOf, workshop, Declaration.model?]
  rw [Option.any_eq_true] at finds
  obtain ⟨found, hfound, isThing⟩ := finds
  obtain ⟨s, resolved⟩ := Option.isSome_iff_exists.1 resolves
  have resolved := eq_ok_of_toOption resolved
  obtain ⟨_, m, hm, _, _, fields, distinct⟩ :=
    merge_gives_inherited_fields resolved rfl unmarked declared
  obtain ⟨f, hf, inherits⟩ := fields "label" found hfound
  exact ⟨s, m, found, f, resolved, hm, hfound, by simpa using isThing, hf, inherits,
    distinct (by decide)⟩

end DelegateSchema
