/-
  DelegateSchema.Proofs.Unrelated — declarations that have nothing to do with the others.

  What other models can notice of a model is its name.  They look models up by the super types that
  they list, by the models that their fields point to, and by the marks that say where a field was
  inherited from.  A declaration that none of them names can stand anywhere among them.  The others
  have the same surroundings with it as without it, and it compiles as if it stood alone.

  Main results:
    * `Declaration.Unrelated.of_frames` — being unrelated is a matter of frames and field types,
    * `Schema.sameAround_insert`, `Schema.findUp?_insert` — the others notice nothing,
    * `Job.compileDeclaration_unrelated` — neither does the declaration itself.
-/
import DelegateSchema.Proofs.Frames
import DelegateSchema.Proofs.Surroundings

namespace DelegateSchema

/-! ## §1. Unrelated declarations -/

/-- A declaration that has nothing to do with the others. -/
structure Declaration.Unrelated (extra : Declaration) (others : List Declaration) : Prop where
  /-- It is an enum or a model. -/
  kind : (∃ e, extra = .enum e) ∨ ∃ x, extra = .model x
  /-- A model has no super types. -/
  rootless : ∀ x ∈ extra.model?, x.superTypes = []
  /-- No other model has its name, -/
  unnamed : ∀ x ∈ extra.model?, ∀ m ∈ modelsOf others, x.name ≠ m.name
  /-- or lists it as a super type, -/
  unlisted : ∀ x ∈ extra.model?, ∀ m ∈ modelsOf others, x.name ∉ m.superTypes
  /-- and no field points to it. -/
  unreferenced : ∀ x ∈ extra.model?, ∀ m ∈ modelsOf others, ∀ f ∈ m.fields,
    f.type.reference ≠ some x.name
  /-- None of its own fields points to a delegate with a concrete model below it. -/
  narrow : ∀ x ∈ extra.model?, ∀ f ∈ x.fields, ∀ target ∈ modelsOf others,
    f.type.reference = some target.name → target.isDelegate = true →
      ∀ c ∈ modelsOf others, Relation.TransGen (Extends (modelsOf others)) c.name target.name →
        c.isAbstract = true

/-- No field of the others is marked as inherited from the declaration, if that is a delegate. -/
def Declaration.Unmarked (extra : Declaration) (others : List Declaration) : Prop :=
  ∀ x ∈ extra.model?, x.isDelegate = true → ∀ m ∈ modelsOf others, ∀ f ∈ m.fields,
    f.inheritedFrom ≠ some x.name

/-- A model that mentions nothing with subtypes and is mentioned nowhere is unrelated. -/
theorem Declaration.unrelated_of_unmentioned {x : Model} {others : List Declaration}
    (rootless : x.superTypes = [])
    (unmentioned : ∀ m ∈ modelsOf others, x.name ≠ m.name ∧ x.name ∉ m.superTypes ∧
      ∀ f ∈ m.fields, f.type.reference ≠ some x.name)
    (childless : ∀ f ∈ x.fields, ∀ target ∈ modelsOf others,
      f.type.reference = some target.name → target.isDelegate = true →
        ∀ m ∈ modelsOf others, target.name ∉ m.superTypes) :
    (Declaration.model x).Unrelated others := by
  constructor
  case kind => exact Or.inr ⟨x, rfl⟩
  case rootless =>
    intro _ isModel
    cases isModel
    exact rootless
  case unnamed =>
    intro _ isModel m hm
    cases isModel
    exact (unmentioned m hm).1
  case unlisted =>
    intro _ isModel m hm
    cases isModel
    exact (unmentioned m hm).2.1
  case unreferenced =>
    intro _ isModel m hm
    cases isModel
    exact (unmentioned m hm).2.2
  case narrow =>
    intro _ isModel f hf target htarget points delegate c _ path
    cases isModel
    -- the last step of a path up to the target is a model that lists it
    obtain ⟨_, _, ⟨m, hm, _, listed⟩⟩ := Relation.TransGen.tail'_iff.1 path
    exact absurd listed (childless f hf target htarget points delegate m hm)

/-- Being unrelated is a matter of frames and of the types of fields. -/
theorem Declaration.Unrelated.of_frames {extra extra' : Declaration}
    {others others' : List Declaration} (unrelated : extra.Unrelated others)
    (frame : extra'.frame = extra.frame)
    (frames : others'.map Declaration.frame = others.map Declaration.frame)
    (ownTypes : ∀ x' ∈ extra'.model?, ∀ f' ∈ x'.fields,
      ∃ x ∈ extra.model?, ∃ f ∈ x.fields, f.type = f'.type)
    (types : ∀ m' ∈ modelsOf others', ∀ f' ∈ m'.fields,
      ∃ m ∈ modelsOf others, ∃ f ∈ m.fields, f.type = f'.type) : extra'.Unrelated others' := by
  have lists : ∀ name base, Extends (modelsOf others') name base →
      Extends (modelsOf others) name base := by
    intro name base ⟨m', hm', isName, listed⟩
    obtain ⟨m, hm, same⟩ := exists_same_frame frames hm'
    obtain ⟨names, bases, _, _⟩ := Model.eq_of_frame same
    exact ⟨m, hm, names.trans isName, bases ▸ listed⟩
  constructor
  case kind =>
    rcases unrelated.kind with ⟨e, rfl⟩ | ⟨x, rfl⟩
    · cases extra' with
      | enum e' => exact Or.inl ⟨e', rfl⟩
      | model m | datasource b | generator b => cases frame
    · cases extra' with
      | model x' => exact Or.inr ⟨x', rfl⟩
      | enum e | datasource b | generator b => cases frame
  case rootless => exact rootless_of_frame frame unrelated.rootless
  case unnamed => exact unnamed_of_frames frame frames unrelated.unnamed
  case unlisted =>
    intro x' hx' m' hm'
    obtain ⟨x, hx, same⟩ := exists_model_same_frame frame hx'
    obtain ⟨m, hm, same'⟩ := exists_same_frame frames hm'
    rw [← (Model.eq_of_frame same).1, ← (Model.eq_of_frame same').2.1]
    exact unrelated.unlisted x hx m hm
  case unreferenced =>
    intro x' hx' m' hm' f' hf'
    obtain ⟨x, hx, same⟩ := exists_model_same_frame frame hx'
    obtain ⟨m, hm, f, hf, type⟩ := types m' hm' f' hf'
    rw [← (Model.eq_of_frame same).1, ← type]
    exact unrelated.unreferenced x hx m hm f hf
  case narrow =>
    intro x' hx' f' hf' target' htarget' points delegate c' hc' below
    obtain ⟨x, hx, f, hf, type⟩ := ownTypes x' hx' f' hf'
    obtain ⟨target, htarget, same⟩ := exists_same_frame frames htarget'
    obtain ⟨c, hc, same'⟩ := exists_same_frame frames hc'
    obtain ⟨name, _, delegates, _⟩ := Model.eq_of_frame same
    obtain ⟨name', _, _, abstracts⟩ := Model.eq_of_frame same'
    rw [← type, ← name] at points
    rw [← name, ← name'] at below
    rw [← delegates] at delegate
    rw [← abstracts]
    exact unrelated.narrow x hx f hf target htarget points delegate c hc
      (Relation.TransGen.mono lists _ _ below)

/-! ## §2. The others -/

section Models

variable {before after : List Declaration} {extra : Declaration}

theorem modelsOf_insert (before after : List Declaration) (extra : Declaration) :
    modelsOf (before ++ extra :: after) =
      modelsOf before ++ (extra.model?.toList ++ modelsOf after) := by
  unfold modelsOf
  rw [List.filterMap_append, List.filterMap_cons]
  cases extra.model? with
  | none => rfl
  | some x => rfl

theorem modelsOf_append (before after : List Declaration) :
    modelsOf (before ++ after) = modelsOf before ++ modelsOf after :=
  List.filterMap_append

theorem mem_modelsOf_insert {m : Model} : m ∈ modelsOf (before ++ extra :: after) ↔
    m ∈ extra.model? ∨ m ∈ modelsOf (before ++ after) := by
  rw [modelsOf_insert, modelsOf_append]
  simp only [List.mem_append, Option.mem_toList]
  tauto

theorem filter_insert {p : Model → Bool} (leftOut : ∀ x ∈ extra.model?, p x = false) :
    (modelsOf (before ++ extra :: after)).filter p = (modelsOf (before ++ after)).filter p := by
  have none : extra.model?.toList.filter p = [] := by
    refine List.filter_eq_nil_iff.2 fun x hx => ?_
    rw [leftOut x (Option.mem_toList.1 hx)]
    exact Bool.false_ne_true
  rw [modelsOf_insert, modelsOf_append, List.filter_append, List.filter_append, List.filter_append,
    none, List.nil_append]

/-- A look-up by another name does not notice the declaration. -/
theorem Schema.model?_insert {name : String} (other : ∀ x ∈ extra.model?, name ≠ x.name) :
    (⟨before ++ extra :: after⟩ : Schema).model? name =
      (⟨before ++ after⟩ : Schema).model? name := by
  unfold Schema.model? findModel? Schema.models
  rw [← List.head?_filter, ← List.head?_filter, filter_insert]
  intro x hx
  exact beq_false_of_ne (other x hx).symm

end Models

namespace Schema

section Others

variable {before after : List Declaration} {extra : Declaration}
  (unrelated : extra.Unrelated (before ++ after))
include unrelated

theorem provider?_insert : (⟨before ++ extra :: after⟩ : Schema).provider? =
    (⟨before ++ after⟩ : Schema).provider? := by
  have none : providerOf? extra = none := by
    rcases unrelated.kind with ⟨e, rfl⟩ | ⟨x, rfl⟩
    · rfl
    · rfl
  unfold provider?
  rw [List.findSome?_append, List.findSome?_append, List.findSome?_cons, none]

/-- No model lists the declaration, so no walk up comes to it. -/
theorem superTypes_others {m : Model} (hm : m ∈ modelsOf (before ++ after)) :
    ∀ base ∈ m.superTypes, ∀ x ∈ extra.model?, base ≠ x.name := by
  intro base listed x hx same
  exact unrelated.unlisted x hx m hm (same ▸ listed)

theorem closed_others (name : String) (m : Model) (_ : ∀ x ∈ extra.model?, name ≠ x.name)
    (found : (⟨before ++ after⟩ : Schema).model? name = some m) :
    ∀ base ∈ m.superTypes, ∀ x ∈ extra.model?, base ≠ x.name :=
  superTypes_others unrelated (mem_of_findModel? found)

theorem descendants_insert (ancestor : Model) :
    (⟨before ++ extra :: after⟩ : Schema).descendants ancestor =
      (⟨before ++ after⟩ : Schema).descendants ancestor := by
  unfold descendants models
  rw [filter_insert]
  · refine List.filter_congr fun m hm => ?_
    unfold isDescendantOf
    have others : ∀ base ∈ m.superTypes.reverse, ∀ x ∈ extra.model?, base ≠ x.name :=
      fun base listed => superTypes_others unrelated hm base (List.mem_reverse.1 listed)
    rw [reaches_congr (fun _ other => model?_insert other) (closed_others unrelated) _ _ _ others]
  · intro x hx
    unfold isDescendantOf
    rw [unrelated.rootless x hx, List.reverse_nil, reaches, Bool.and_false]

/-- **The other models have the same surroundings as before.** -/
theorem sameAround_insert {m : Model} (hm : m ∈ modelsOf (before ++ after)) :
    (⟨before ++ after⟩ : Schema).SameAround ⟨before ++ extra :: after⟩ m := by
  constructor
  case ancestors =>
    unfold ancestors
    rw [ancestorsFrom_congr (fun _ other => model?_insert other) (closed_others unrelated) _ _
      (superTypes_others unrelated hm)]
  case bases =>
    exact List.filterMap_congr fun base listed =>
      model?_insert (superTypes_others unrelated hm base listed)
  case subtypes =>
    refine filter_insert fun x hx => ?_
    rw [unrelated.rootless x hx, List.contains_nil, Bool.and_false]
  case targets =>
    intro f hf
    unfold relationTarget?
    cases reference : f.type.reference with
    | none => rfl
    | some name =>
      refine model?_insert fun x hx same => ?_
      rw [same] at reference
      exact unrelated.unreferenced x hx m hm f hf reference
  case descendants => exact fun _ _ target _ => descendants_insert unrelated target
  case naming =>
    unfold namesConstraints
    rw [provider?_insert unrelated]

/-- What a mark says of a field stays the same, unless it names the declaration. -/
theorem isFromDelegate_insert (unmarked : extra.Unmarked (before ++ after)) {m : Model} {f : Field}
    (hm : m ∈ modelsOf (before ++ after)) (hf : f ∈ m.fields) :
    (⟨before ++ extra :: after⟩ : Schema).isFromDelegate f =
      (⟨before ++ after⟩ : Schema).isFromDelegate f := by
  unfold isFromDelegate
  cases mark : f.inheritedFrom with
  | none => rfl
  | some name =>
    show ((⟨before ++ extra :: after⟩ : Schema).model? name).any (·.isDelegate) =
      ((⟨before ++ after⟩ : Schema).model? name).any (·.isDelegate)
    by_cases other : ∀ x ∈ extra.model?, name ≠ x.name
    · rw [model?_insert other]
    · -- the mark names the new model, which is no delegate; before, it named none
      push Not at other
      obtain ⟨x, hx, rfl⟩ := other
      have plain : ¬ x.isDelegate = true := fun delegate => unmarked x hx delegate m hm f hf mark
      have isNow : ((⟨before ++ extra :: after⟩ : Schema).model? x.name).any (·.isDelegate) =
          false := by
        rw [Option.any_eq_false]
        intro y found
        rcases mem_modelsOf_insert.1 (mem_of_findModel? found) with isExtra | isOther
        · cases Option.mem_unique isExtra hx
          exact Bool.eq_false_of_not_eq_true plain
        · exact absurd (name_of_findModel? found).symm (unrelated.unnamed x hx y isOther)
      have wasBefore : (⟨before ++ after⟩ : Schema).model? x.name = none := by
        rw [Option.eq_none_iff_forall_ne_some]
        intro y found
        exact unrelated.unnamed x hx y (mem_of_findModel? found) (name_of_findModel? found).symm
      rw [isNow, wasBefore]
      rfl

/-- The delegates that fields are inherited from stay the same. -/
theorem findUp?_insert (unmarked : extra.Unmarked (before ++ after)) {m : Model}
    (hm : m ∈ modelsOf (before ++ after)) (fieldName : String) :
    (⟨before ++ extra :: after⟩ : Schema).findUp? m fieldName =
      (⟨before ++ after⟩ : Schema).findUp? m fieldName := by
  refine searchUp_congr (fun _ other => model?_insert other) (closed_others unrelated) _ _ _ ?_
    (superTypes_others unrelated hm)
  intro name base found
  unfold ownDelegateField?
  split
  next =>
    cases has : base.field? fieldName with
    | none => rfl
    | some f =>
      dsimp only
      rw [isFromDelegate_insert unrelated unmarked (mem_of_findModel? found)
        (List.mem_of_find?_eq_some has)]
  next => rfl

end Others

end Schema

/-! ## §3. The new declaration -/

/-- Where no pass finds anything to do, a model compiles to its own block. -/
theorem Job.compileModel_idle {j : Job} {m : Model} (links : j.links m = pure [])
    (widened : ∀ f ∈ m.fields, j.widenedTo m f = [])
    (opposite : ∀ f ∈ m.fields, j.inheritedOpposite? m f = none) :
    j.compileModel m = Compile.ofExcept (j.ownBlock m) := by
  have idle : j.completeBlock m = pure :=
    funext fun block => completeBlock_idle links widened opposite block
  unfold compileModel
  rw [idle, bind_pure]

theorem Schema.storingDelegate?_rootless {x : Model} (rootless : x.superTypes = []) (s : Schema)
    (f : Field) : s.storingDelegate? x f = none := by
  unfold storingDelegate? ancestors
  rw [rootless, ancestorsFrom]
  split
  next => rfl
  next => rfl

section Extra

variable {before after : List Declaration} {extra : Declaration}
  (unrelated : extra.Unrelated (before ++ after))
include unrelated

/-- What is below what, is so among the others. -/
theorem Schema.transGen_of_below {name ancestor : String}
    (below : (⟨before ++ extra :: after⟩ : Schema).Below name ancestor) :
    Relation.TransGen (Extends (modelsOf (before ++ after))) name ancestor := by
  refine Relation.TransGen.mono ?_ _ _ below
  intro name base ⟨m, found, listed⟩
  rcases mem_modelsOf_insert.1 (mem_of_findModel? found) with isExtra | isOther
  · rw [unrelated.rootless m isExtra] at listed
    cases listed
  · exact ⟨m, isOther, name_of_findModel? found, listed⟩

namespace Job

variable {j : Job} {x : Model} (hx : x ∈ extra.model?)
include hx

theorem links_unrelated :
    ({ j with schema := ⟨before ++ extra :: after⟩ } : Job).links x = pure [] := by
  have subtypes : (⟨before ++ extra :: after⟩ : Schema).directSubtypes x = [] := by
    refine List.filter_eq_nil_iff.2 fun m hm subtype => ?_
    simp only [Bool.and_eq_true, List.contains_iff_mem] at subtype
    rcases mem_modelsOf_insert.1 hm with isExtra | isOther
    · rw [unrelated.rootless m isExtra] at subtype
      cases subtype.2
    · exact unrelated.unlisted x hx m isOther subtype.2
  unfold links linksToSubtypes linksToBases delegateBases
  dsimp only
  rw [subtypes, unrelated.rootless x hx]
  split
  next => rfl
  next => rfl

/-- A field that points to the model itself is not widened either, since nothing is below it. -/
theorem widenedTo_unrelated
    (distinct : (⟨before ++ extra :: after⟩ : Schema).modelNames.Nodup) {f : Field}
    (hf : f ∈ x.fields) :
    ({ j with schema := ⟨before ++ extra :: after⟩ } : Job).widenedTo x f = [] := by
  rw [List.eq_nil_iff_forall_not_mem]
  intro c widened
  obtain ⟨_, target, points, delegate, known, concrete, below⟩ :=
    (mem_widenedTo distinct f c).1 widened
  have path := Schema.transGen_of_below unrelated below
  obtain ⟨name, reference, found⟩ := Option.bind_eq_some_iff.1 points
  rw [← name_of_findModel? found] at reference
  obtain ⟨_, ⟨m, hm, isLower, _⟩, _⟩ := Relation.TransGen.head'_iff.1 path
  obtain ⟨_, _, ⟨m', hm', _, listed⟩⟩ := Relation.TransGen.tail'_iff.1 path
  rcases mem_modelsOf_insert.1 (mem_of_findModel? found) with isExtra | isOther
  · exact unrelated.unlisted target isExtra m' hm' listed
  · rcases mem_modelsOf_insert.1 known with isExtra' | isOther'
    · exact unrelated.unnamed c isExtra' m hm isLower.symm
    · have abstract :=
        unrelated.narrow x hx f hf target isOther reference delegate c isOther' path
      rw [abstract] at concrete
      cases concrete

theorem inheritedOpposite?_unrelated (f : Field) :
    ({ j with schema := ⟨before ++ extra :: after⟩ } : Job).inheritedOpposite? x f = none := by
  have nowhere : (⟨before ++ extra :: after⟩ : Schema).findUp? x f.name = none := by
    unfold Schema.findUp?
    rw [unrelated.rootless x hx, Schema.searchUp]
  unfold inheritedOpposite?
  dsimp only
  rw [nowhere]
  cases (⟨before ++ extra :: after⟩ : Schema).relationTarget? f with
  | none => rfl
  | some _ =>
    cases f.inheritedFrom with
    | none => rfl
    | some _ => rfl

end Job

end Extra

/-- **An unrelated declaration compiles the same wherever it stands**, and it asks nothing. -/
theorem Job.compileDeclaration_unrelated (j : Job) (extra : Declaration) :
    ∃ result, ∀ before after, extra.Unrelated (before ++ after) →
      (⟨before ++ extra :: after⟩ : Schema).modelNames.Nodup →
      ({ j with schema := ⟨before ++ extra :: after⟩ } : Job).compileDeclaration extra =
        Compile.ofExcept result := by
  cases extra with
  | model x =>
    refine ⟨if x.isAbstract then .ok none else (j.ownBlock x).map fun b => some (.model b), ?_⟩
    intro before after unrelated distinct
    have rootless := unrelated.rootless x rfl
    have own : ({ j with schema := ⟨before ++ .model x :: after⟩ } : Job).ownBlock x =
        j.ownBlock x := by
      refine ownBlock_stored fun f => ?_
      rw [Schema.storingDelegate?_rootless rootless, Schema.storingDelegate?_rootless rootless]
    have compiled := compileModel_idle (links_unrelated (j := j) unrelated rfl)
      (fun f hf => widenedTo_unrelated unrelated rfl distinct hf)
      (fun f _ => inheritedOpposite?_unrelated unrelated rfl f)
    simp only [compileDeclaration, compiled, own]
    split
    next => rfl
    next =>
      cases j.ownBlock x with
      | ok b => rfl
      | error fault => rfl
  | enum e =>
    refine ⟨e.toTarget.map fun b => some (.enum b), fun _ _ _ _ => ?_⟩
    simp only [compileDeclaration]
    cases e.toTarget with
    | ok b => rfl
    | error fault => rfl
  | datasource b | generator b =>
    refine ⟨.ok none, fun _ _ unrelated _ => ?_⟩
    rcases unrelated.kind with ⟨e, other⟩ | ⟨x, other⟩
    · cases other
    · cases other

end DelegateSchema
