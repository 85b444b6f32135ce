/-
  DelegateSchema.Proofs.Inheritance — what the merge of super types gives.

  Every model can be merged from scratch, by a walk up its super types that remembers nothing but
  the path it came along.  The path only decides whether it fails: a model merges to one result on
  every path.  So a merged model is described by the merged models of its super types alone, and as
  the merge of a model merges its super types first, its success is also a proof that the super
  types do not run in a circle.

  Main results:
    * `Inherited.Sound` — the fields taken over have distinct names, none of them declared by the
      model itself, and each of them is marked with the model that declared it,
    * `mem_fieldNames_withInherited` — a merged model has the names of its own fields and of the
      fields of its merged super types, and no others,
    * `exists_split_of_undeclared` — a field that it does not declare is marked and has a name of
      its own,
    * `mergeModel_unique` — a model merges to one result on every path,
    * `acc_of_mergeModel` — a model that merges is below no circle,
    * `mergeModel_of_more` — a model that merges, merges alike where there are more models.
-/
import DelegateSchema.Proofs.Identifiers
import DelegateSchema.Schema.Inheritance

namespace DelegateSchema

/-! ## §1. Names of models and fields -/

/-- The names of the fields of a model, in order. -/
def Model.fieldNames (m : Model) : List String :=
  m.fields.map (·.name)

theorem Model.field?_isSome_iff (m : Model) (name : String) :
    (m.field? name).isSome = true ↔ name ∈ m.fieldNames := by
  unfold Model.field? Model.fieldNames
  rw [List.find?_isSome, List.mem_map]
  simp

theorem Model.mem_fieldNames {m : Model} {f : Field} (h : f ∈ m.fields) :
    f.name ∈ m.fieldNames :=
  List.mem_map.2 ⟨f, h, rfl⟩

theorem Model.mem_of_field? {m : Model} {name : String} {f : Field}
    (h : m.field? name = some f) : f ∈ m.fields :=
  List.mem_of_find?_eq_some h

theorem Model.name_of_field? {m : Model} {name : String} {f : Field}
    (h : m.field? name = some f) : f.name = name := by
  simpa using List.find?_some h

/-- Where names are distinct, every model is the one found under its name. -/
theorem findModel?_of_mem {models : List Model} {m : Model}
    (distinct : (models.map (·.name)).Nodup) (h : m ∈ models) :
    findModel? models m.name = some m := by
  induction models with
  | nil => cases h
  | cons first rest ih =>
    rw [List.map_cons, List.nodup_cons] at distinct
    unfold findModel? at ih ⊢
    rcases List.mem_cons.1 h with rfl | later
    · simp
    · have other : first.name ≠ m.name := fun same =>
        distinct.1 (same ▸ List.mem_map.2 ⟨m, later, rfl⟩)
      rw [List.find?_cons_of_neg (by simpa using other)]
      exact ih distinct.2 later

/-! ## §2. The fields taken over from super types -/

namespace Inherited

/-- The fields that `own` has taken over so far are such as it may have. -/
structure Sound (own : Model) (fields : List Field) : Prop where
  distinct : (fields.map (·.name)).Nodup
  undeclared : ∀ f ∈ fields, f.name ∉ own.fieldNames
  marked : ∀ f ∈ fields, f.inheritedFrom.isSome = true

theorem Sound.nil (own : Model) : Sound own [] :=
  ⟨List.nodup_nil, by simp, by simp⟩

/-- A field is left out when its name is taken, and added at the end otherwise. -/
theorem addField_cases (own : Model) (base : String) (fields : List Field) (f : Field) :
    (addField own base fields f = fields ∧
        (f.name ∈ own.fieldNames ∨ f.name ∈ fields.map (·.name))) ∨
      (addField own base fields f = fields ++ [f.inheritedVia base] ∧
        f.name ∉ own.fieldNames ∧ f.name ∉ fields.map (·.name)) := by
  unfold addField
  split
  next taken =>
    refine Or.inl ⟨rfl, ?_⟩
    simpa [Model.fieldNames] using taken
  next free =>
    refine Or.inr ⟨rfl, ?_⟩
    simpa [Model.fieldNames] using free

theorem Sound.addField {own : Model} {fields : List Field} (h : Sound own fields) (base : String)
    (f : Field) : Sound own (addField own base fields f) := by
  rcases addField_cases own base fields f with ⟨same, _⟩ | ⟨added, undeclared, new⟩
  · rw [same]
    exact h
  · rw [added]
    refine ⟨?_, ?_, ?_⟩
    · rw [List.map_append, List.nodup_append]
      refine ⟨h.distinct, by simp, ?_⟩
      intro a ha b hb same
      rw [List.map_singleton, List.mem_singleton] at hb
      exact new (by rw [← show b = f.name from hb, ← same]; exact ha)
    · intro g hg
      rcases List.mem_append.1 hg with old | last
      · exact h.undeclared g old
      · rw [List.mem_singleton.1 last]
        exact undeclared
    · intro g hg
      rcases List.mem_append.1 hg with old | last
      · exact h.marked g old
      · rw [List.mem_singleton.1 last]
        simp [Field.inheritedVia]

theorem mem_names_addField (own : Model) (base : String) (fields : List Field) (f : Field)
    (name : String) :
    name ∈ (addField own base fields f).map (·.name) ↔
      name ∈ fields.map (·.name) ∨ name = f.name ∧ name ∉ own.fieldNames := by
  rcases addField_cases own base fields f with ⟨same, taken⟩ | ⟨added, undeclared, _⟩
  · rw [same]
    constructor
    · exact Or.inl
    · intro h
      rcases h with old | ⟨rfl, free⟩
      · exact old
      · exact taken.resolve_left free
  · rw [added, List.map_append, List.mem_append]
    constructor
    · intro h
      rcases h with old | last
      · exact Or.inl old
      · have : name = f.name := List.mem_singleton.1 last
        exact Or.inr ⟨this, this ▸ undeclared⟩
    · intro h
      rcases h with old | ⟨rfl, _⟩
      · exact Or.inl old
      · exact Or.inr (List.mem_singleton.2 rfl)

theorem Sound.absorb {own : Model} {sofar : Inherited} (h : Sound own sofar.fields)
    (base : Model) : Sound own (sofar.absorb own base).fields := by
  show Sound own (base.fields.foldl _ sofar.fields)
  generalize sofar.fields = fields at h ⊢
  induction base.fields generalizing fields with
  | nil => exact h
  | cons f rest ih => exact ih _ (h.addField base.name f)

theorem mem_names_absorb (own base : Model) (sofar : Inherited) (name : String) :
    name ∈ (sofar.absorb own base).fields.map (·.name) ↔
      name ∈ sofar.fields.map (·.name) ∨ name ∈ base.fieldNames ∧ name ∉ own.fieldNames := by
  show name ∈ (base.fields.foldl _ sofar.fields).map (·.name) ↔ _
  unfold Model.fieldNames
  generalize sofar.fields = fields
  induction base.fields generalizing fields with
  | nil => simp
  | cons f rest ih =>
    rw [List.foldl_cons, ih, mem_names_addField, List.map_cons, List.mem_cons]
    unfold Model.fieldNames
    tauto

/-- What a model has from its merged super types, taken in listed order. -/
def ofBases (own : Model) (bases : List Model) : Inherited :=
  bases.foldl (absorb own) {}

/-- The attributes that super types hand down, super type by super type. -/
theorem attributes_ofBases (own : Model) (bases : List Model) :
    (ofBases own bases).attributes =
      bases.flatMap fun base => base.attributes.filter base.passesOn := by
  have all : ∀ sofar : Inherited, (bases.foldl (absorb own) sofar).attributes =
      sofar.attributes ++ bases.flatMap fun base => base.attributes.filter base.passesOn := by
    induction bases with
    | nil => simp
    | cons base bases ih =>
      intro sofar
      rw [List.foldl_cons, ih, List.flatMap_cons, ← List.append_assoc]
      rfl
  exact all {}

theorem sound_ofBases (own : Model) (bases : List Model) :
    Sound own (ofBases own bases).fields := by
  unfold ofBases
  have start : Sound own ({} : Inherited).fields := Sound.nil own
  generalize ({} : Inherited) = sofar at start ⊢
  induction bases generalizing sofar with
  | nil => exact start
  | cons base rest ih => exact ih _ (start.absorb base)

theorem exists_of_mem_foldl_addField {own : Model} {base : String} {gs fields : List Field}
    {f : Field} (h : f ∈ gs.foldl (addField own base) fields) :
    f ∈ fields ∨ ∃ g ∈ gs, f = g.inheritedVia base := by
  induction gs generalizing fields with
  | nil => exact Or.inl h
  | cons g gs ih =>
    rcases ih h with sofar | ⟨g', hg', same⟩
    · rcases addField_cases own base fields g with ⟨same, _⟩ | ⟨added, _⟩
      · rw [same] at sofar
        exact Or.inl sofar
      · rw [added] at sofar
        rcases List.mem_append.1 sofar with old | last
        · exact Or.inl old
        · exact Or.inr ⟨g, List.mem_cons_self, List.mem_singleton.1 last⟩
    · exact Or.inr ⟨g', List.mem_cons_of_mem _ hg', same⟩

/-- A field taken over comes from one of the super types. -/
theorem exists_of_mem_foldl_absorb {own : Model} {bases : List Model} {sofar : Inherited}
    {f : Field} (h : f ∈ (bases.foldl (absorb own) sofar).fields) :
    f ∈ sofar.fields ∨ ∃ base ∈ bases, ∃ g ∈ base.fields, f = g.inheritedVia base.name := by
  induction bases generalizing sofar with
  | nil => exact Or.inl h
  | cons base bases ih =>
    rcases ih h with absorbed | ⟨base', hbase', source⟩
    · rcases exists_of_mem_foldl_addField absorbed with old | ⟨g, hg, same⟩
      · exact Or.inl old
      · exact Or.inr ⟨base, List.mem_cons_self, g, hg, same⟩
    · exact Or.inr ⟨base', List.mem_cons_of_mem _ hbase', source⟩

theorem mem_names_foldl_absorb (own : Model) (bases : List Model) (sofar : Inherited)
    (name : String) :
    name ∈ (bases.foldl (absorb own) sofar).fields.map (·.name) ↔
      name ∈ sofar.fields.map (·.name) ∨
        (∃ base ∈ bases, name ∈ base.fieldNames) ∧ name ∉ own.fieldNames := by
  induction bases generalizing sofar with
  | nil => simp
  | cons base rest ih =>
    rw [List.foldl_cons, ih, mem_names_absorb]
    simp only [List.exists_mem_cons_iff]
    tauto

end Inherited

/-- **A merged model has the names of its own fields and of those of its super types.** -/
theorem mem_fieldNames_withInherited (own : Model) (bases : List Model) (name : String) :
    name ∈ (own.withInherited (Inherited.ofBases own bases)).fieldNames ↔
      name ∈ own.fieldNames ∨ ∃ base ∈ bases, name ∈ base.fieldNames := by
  show name ∈ ((Inherited.ofBases own bases).fields ++ own.fields).map (·.name) ↔ _
  rw [List.map_append, List.mem_append]
  show name ∈ (bases.foldl (Inherited.absorb own) {}).fields.map (·.name)
    ∨ name ∈ own.fieldNames ↔ _
  rw [Inherited.mem_names_foldl_absorb]
  simp only [List.map_nil, List.not_mem_nil, false_or]
  by_cases declared : name ∈ own.fieldNames
  · simp [declared]
  · simp [declared]

/-- **A field that a model has but does not declare is inherited**: it is marked so, and no other
    field of the model has its name. -/
theorem exists_split_of_undeclared {own : Model} {bases : List Model} {f : Field}
    (hf : f ∈ (own.withInherited (Inherited.ofBases own bases)).fields)
    (undeclared : f.name ∉ own.fieldNames) :
    f.inheritedFrom.isSome = true ∧ ∃ before after,
      (own.withInherited (Inherited.ofBases own bases)).fields = before ++ f :: after ∧
      ∀ g ∈ before ++ after, f.name ≠ g.name := by
  have sound := Inherited.sound_ofBases own bases
  have takenOver : f ∈ (Inherited.ofBases own bases).fields := by
    rcases List.mem_append.1 hf with inherited | declared
    · exact inherited
    · exact absurd (Model.mem_fieldNames declared) undeclared
  obtain ⟨before, after, split⟩ := List.append_of_mem takenOver
  refine ⟨sound.marked f takenOver, before, after ++ own.fields, ?_, ?_⟩
  · show (Inherited.ofBases own bases).fields ++ own.fields = _
    rw [split, List.append_assoc, List.cons_append]
  · have distinct := sound.distinct
    rw [split, List.map_append, List.map_cons, List.nodup_append, List.nodup_cons] at distinct
    obtain ⟨_, ⟨notAfter, _⟩, notBefore⟩ := distinct
    intro g hg names
    rw [List.mem_append, List.mem_append] at hg
    rcases hg with earlier | later | declared
    · exact notBefore g.name (List.mem_map.2 ⟨g, earlier, rfl⟩) f.name List.mem_cons_self names.symm
    · exact notAfter (List.mem_map.2 ⟨g, later, names.symm⟩)
    · exact undeclared (names ▸ Model.mem_fieldNames declared)

/-! ## §3. The merge without memory -/

mutual

/-- The model `m` with everything it inherits; `path` holds the models the walk came through. -/
def mergeModel (models : List Model) (path : List String) (m : Model) (_ : m ∈ models) :
    Except ResolveError Model :=
  if _ : m.name ∈ path then .error (.inheritanceCycle m.name)
  else do
    return m.withInherited (← mergeBases models m (m.name :: path) {} m.superTypes)
termination_by stepsLeft (models.map (·.name)) path (widest models) 0
decreasing_by
  have known : m ∈ models := by assumption
  apply stepsLeft_lt_of_new (List.mem_map.2 ⟨m, known, rfl⟩) ‹m.name ∉ path›
  have := superTypes_length_le known
  omega

/-- Merges the super types `bases` of `own` and adds what it has from them to `sofar`. -/
def mergeBases (models : List Model) (own : Model) (path : List String) (sofar : Inherited) :
    (bases : List String) → Except ResolveError Inherited
  | [] => .ok sofar
  | base :: bases =>
    match found : findModel? models base with
    | none => .error (.unknownSuperType own.name base)
    | some baseModel => do
      let merged ← mergeModel models path baseModel (mem_of_findModel? found)
      mergeBases models own path (sofar.absorb own merged) bases
termination_by bases => stepsLeft (models.map (·.name)) path (widest models) (bases.length + 1)
decreasing_by
  · apply stepsLeft_lt
    omega
  · apply stepsLeft_lt
    simp

end

/-- Every declaration with its models merged; `models` are the unmerged ones. -/
def mergeDeclaration (models : List Model) : Declaration → Except ResolveError Declaration
  | .model m =>
    match found : findModel? models m.name with
    | some unmerged => do
      return .model (← mergeModel models [] unmerged (mem_of_findModel? found))
    | none => .error (.unknownModel m.name)
  | decl => .ok decl

section Merge

variable {models : List Model}

theorem mergeModel_eq_ok {path : List String} {m r : Model} {known : m ∈ models}
    (h : mergeModel models path m known = .ok r) :
    ∃ inherited, mergeBases models m (m.name :: path) {} m.superTypes = .ok inherited ∧
      r = m.withInherited inherited := by
  rw [mergeModel] at h
  split at h
  next => cases h
  next =>
    obtain ⟨inherited, ok, same⟩ := bind_ok_iff.1 h
    exact ⟨inherited, ok, (Except.ok.inj same).symm⟩

theorem mergeBases_cons_eq_ok {own : Model} {path bases : List String} {sofar r : Inherited}
    {base : String} (h : mergeBases models own path sofar (base :: bases) = .ok r) :
    ∃ (m : Model) (found : findModel? models base = some m) (merged : Model),
      mergeModel models path m (mem_of_findModel? found) = .ok merged ∧
      mergeBases models own path (sofar.absorb own merged) bases = .ok r := by
  rw [mergeBases] at h
  split at h
  next => cases h
  next m found =>
    obtain ⟨merged, first, rest⟩ := bind_ok_iff.1 h
    exact ⟨m, found, merged, first, rest⟩

theorem mergeBases_of_missing {own : Model} {path bases : List String} {sofar : Inherited}
    {base : String} (missing : findModel? models base = none) :
    mergeBases models own path sofar (base :: bases) =
      .error (.unknownSuperType own.name base) := by
  rw [mergeBases]
  split
  next => rfl
  next found => cases missing.symm.trans found

theorem mergeBases_of_found {own : Model} {path bases : List String} {sofar : Inherited}
    {base : String} {m : Model} (found : findModel? models base = some m) :
    mergeBases models own path sofar (base :: bases) =
      mergeModel models path m (mem_of_findModel? found) >>= fun merged =>
        mergeBases models own path (sofar.absorb own merged) bases := by
  rw [mergeBases]
  split
  next missing => cases missing.symm.trans found
  next found' =>
    cases found'.symm.trans found
    rfl

/-- A model without super types is merged as it is. -/
theorem mergeModel_of_rootless {path : List String} {m : Model} {known : m ∈ models}
    (rootless : m.superTypes = []) (new : m.name ∉ path) :
    mergeModel models path m known = .ok m := by
  rw [mergeModel, dif_neg new, rootless, mergeBases]
  show Except.ok (m.withInherited {}) = .ok m
  simp [Model.withInherited]

theorem mergeDeclaration_of_found {m u : Model} (found : findModel? models m.name = some u) :
    mergeDeclaration models (.model m) =
      Declaration.model <$> mergeModel models [] u (mem_of_findModel? found) := by
  simp only [mergeDeclaration]
  split
  next found' =>
    cases found'.symm.trans found
    rfl
  next missing => cases missing.symm.trans found

/-- The super types are merged one by one, and their fields are taken over in that order. -/
theorem mergeBases_eq_ok {own : Model} {path bases : List String} {sofar r : Inherited}
    (h : mergeBases models own path sofar bases = .ok r) :
    ∃ merged, List.Forall₂ (fun base m => ∃ (u : Model) (found : findModel? models base = some u),
        mergeModel models path u (mem_of_findModel? found) = .ok m) bases merged ∧
      r = merged.foldl (Inherited.absorb own) sofar := by
  induction bases generalizing sofar with
  | nil =>
    rw [mergeBases] at h
    exact ⟨[], List.Forall₂.nil, (Except.ok.inj h).symm⟩
  | cons base bases ih =>
    obtain ⟨u, found, m, first, rest⟩ := mergeBases_cons_eq_ok h
    obtain ⟨merged, all, result⟩ := ih rest
    exact ⟨m :: merged, List.Forall₂.cons ⟨u, found, first⟩ all, result⟩

/-- **The path does not matter for the result**: it only decides whether the merge fails. -/
theorem mergeModel_unique {path path' : List String} {m r r' : Model} {known : m ∈ models}
    (h : mergeModel models path m known = .ok r) (h' : mergeModel models path' m known = .ok r') :
    r = r' := by
  -- a model and the rest of a list of super types are merged in turn, so there are two motives;
  -- the path is fixed only on the left
  refine mergeModel.induct models
    (fun path m known => ∀ r, mergeModel models path m known = .ok r →
      ∀ path' r', mergeModel models path' m known = .ok r' → r = r')
    (fun own path sofar bases => ∀ r, mergeBases models own path sofar bases = .ok r →
      ∀ path' r', mergeBases models own path' sofar bases = .ok r' → r = r')
    ?_ ?_ ?_ ?_ ?_ path m known r h path' r' h'
  · intro path m known repeated r h
    rw [mergeModel, dif_pos repeated] at h
    cases h
  · intro path m known _ ih r h path' r' h'
    obtain ⟨inherited, ok, rfl⟩ := mergeModel_eq_ok h
    obtain ⟨inherited', ok', rfl⟩ := mergeModel_eq_ok h'
    rw [ih inherited ok _ inherited' ok']
  · intro own path sofar r h path' r' h'
    rw [mergeBases] at h h'
    exact Except.ok.inj (h.symm.trans h')
  · intro own path sofar base bases missing r h
    obtain ⟨_, found, _⟩ := mergeBases_cons_eq_ok h
    rw [missing] at found
    cases found
  · intro own path sofar base bases m found ih_base ih_rest r h path' r' h'
    obtain ⟨u, hu, merged, first, rest⟩ := mergeBases_cons_eq_ok h
    obtain ⟨u', hu', merged', first', rest'⟩ := mergeBases_cons_eq_ok h'
    rw [found] at hu hu'
    cases hu
    cases hu'
    rw [← ih_base merged first path' merged' first'] at rest'
    exact ih_rest merged r rest path' r' rest'

/-- `base` is among the super types that the model `name` lists. -/
def Listed (models : List Model) (base name : String) : Prop :=
  ∃ u, findModel? models name = some u ∧ base ∈ u.superTypes

/-- One of the models is named `name` and lists `base` among its super types. -/
def Extends (models : List Model) (name base : String) : Prop :=
  ∃ m ∈ models, m.name = name ∧ base ∈ m.superTypes

/-- **A model that merges is below no circle**: every walk up its super types ends, because the
    merge has walked there. -/
theorem acc_of_mergeModel (distinct : (models.map (·.name)).Nodup) {path : List String}
    {m r : Model} {known : m ∈ models} (h : mergeModel models path m known = .ok r) :
    Acc (Listed models) m.name := by
  -- for a list of super types the motive speaks of each of them
  refine mergeModel.induct models
    (fun path m known => ∀ r, mergeModel models path m known = .ok r → Acc (Listed models) m.name)
    (fun own path sofar bases => ∀ r, mergeBases models own path sofar bases = .ok r →
      ∀ base ∈ bases, Acc (Listed models) base)
    ?_ ?_ ?_ ?_ ?_ path m known r h
  · intro path m known repeated r h
    rw [mergeModel, dif_pos repeated] at h
    cases h
  · intro path m known _ ih r h
    obtain ⟨inherited, ok, _⟩ := mergeModel_eq_ok h
    refine Acc.intro _ ?_
    intro base ⟨u, found, listed⟩
    rw [findModel?_of_mem distinct known] at found
    cases found
    exact ih inherited ok base listed
  · intro own path sofar r _ base listed
    cases listed
  · intro own path sofar base bases missing r h
    obtain ⟨_, found, _⟩ := mergeBases_cons_eq_ok h
    rw [missing] at found
    cases found
  · intro own path sofar base bases m found ih_base ih_rest r h listed hl
    obtain ⟨u, hu, merged, first, rest⟩ := mergeBases_cons_eq_ok h
    rw [found] at hu
    cases hu
    rcases List.mem_cons.1 hl with rfl | later
    · have base_name : m.name = listed := name_of_findModel? found
      rw [← base_name]
      exact ih_base merged first
    · exact ih_rest merged r rest listed later

end Merge

/-! ## §4. More models -/

section MoreModels

variable {models models' : List Model}
  (more : ∀ name u, findModel? models name = some u → findModel? models' name = some u)
include more

/-- A model that merges, merges alike where there are more models. -/
theorem mergeModel_of_more {path : List String} {m r : Model} {known : m ∈ models}
    (h : mergeModel models path m known = .ok r) (known' : m ∈ models') :
    mergeModel models' path m known' = .ok r := by
  refine mergeModel.induct models
    (fun path m known => ∀ r, mergeModel models path m known = .ok r →
      ∀ known', mergeModel models' path m known' = .ok r)
    (fun own path sofar bases => ∀ r, mergeBases models own path sofar bases = .ok r →
      mergeBases models' own path sofar bases = .ok r)
    ?_ ?_ ?_ ?_ ?_ path m known r h known'
  -- a name repeated on the path and a base that is missing are errors, so nothing merged there
  · intro path m known repeated r h
    rw [mergeModel, dif_pos repeated] at h
    cases h
  · intro path m known new ih r h known'
    obtain ⟨inherited, ok, rfl⟩ := mergeModel_eq_ok h
    rw [mergeModel, dif_neg new, ih inherited ok]
    rfl
  · intro own path sofar r h
    rw [mergeBases] at h ⊢
    exact h
  · intro own path sofar base bases missing r h
    obtain ⟨_, found, _⟩ := mergeBases_cons_eq_ok h
    cases missing.symm.trans found
  · intro own path sofar base bases m found ih_base ih_rest r h
    obtain ⟨u, hu, merged, first, rest⟩ := mergeBases_cons_eq_ok h
    cases found.symm.trans hu
    rw [mergeBases_of_found (more base m found), ih_base merged first]
    exact ih_rest merged r rest

theorem mergeDeclaration_of_more {decl decl' : Declaration}
    (known : ∀ m ∈ decl.model?, (findModel? models m.name).isSome = true)
    (h : mergeDeclaration models decl = .ok decl') : mergeDeclaration models' decl = .ok decl' := by
  cases decl with
  | model m =>
    obtain ⟨u, found⟩ := Option.isSome_iff_exists.1 (known m rfl)
    rw [mergeDeclaration_of_found found] at h
    obtain ⟨merged, ok, rfl⟩ := map_ok_iff.1 h
    rw [mergeDeclaration_of_found (more _ u found), mergeModel_of_more more ok]
    rfl
  | enum e | datasource e | generator e => exact h

end MoreModels

end DelegateSchema
