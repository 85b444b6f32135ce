/-
  DelegateSchema.Proofs.Passes — what each pass does to the block of a model.

  A pass adds fields at the end of a block and edits the attributes of fields; none of them takes
  a field away, renames it or changes its type.  The signature of a field is its name and its
  type, and the passes are described by the signatures that they leave.

  Main results:
    * `ownBlock_eq_ok` — the block a model starts with,
    * `widenFor_eq_ok` — what widening one field for one descendant adds,
    * `signatures_widen` — what the whole of widening adds,
    * `signatures_nameRelations` — naming relations adds nothing.

  All of this is said of a compilation under fixed answers to its questions.
-/
import DelegateSchema.Compile.Build
import DelegateSchema.Proofs.Identifiers

namespace DelegateSchema

open Identifier (ofShort)

/-! ## §1. Signatures -/

namespace Target

/-- What a field is called and what it holds. -/
def Field.signature (f : Field) : String × FieldType :=
  (f.name, f.type)

@[simp]
theorem Field.signature_addAttribute (f : Field) (a : Attribute) :
    (f.addAttribute a).signature = f.signature := rfl

theorem map_updateFirst {α β : Type} {view : α → β} {p : α → Bool} {edit : α → α}
    (same : ∀ x, view (edit x) = view x) (xs : List α) :
    (updateFirst p edit xs).map view = xs.map view := by
  induction xs with
  | nil => rfl
  | cons x xs ih =>
    unfold updateFirst
    split
    next => simp [same]
    next => simp [ih]

namespace ModelBlock

/-- The signatures of the fields of a block, in order. -/
def signatures (b : ModelBlock) : List (String × FieldType) :=
  b.fields.map Field.signature

/-- The names of the fields of a block, in order. -/
def fieldNames (b : ModelBlock) : List String :=
  b.fields.map (·.name)

theorem fieldNames_eq (b : ModelBlock) : b.fieldNames = b.signatures.map (·.1) := by
  simp [fieldNames, signatures, Field.signature]

/-- The block with fields and attributes added at the end. -/
def extend (b : ModelBlock) (fields : List Field) (attributes : List Attribute) : ModelBlock :=
  { b with fields := b.fields ++ fields, attributes := b.attributes ++ attributes }

theorem extend_nil (b : ModelBlock) : b.extend [] [] = b := by
  simp [extend]

theorem extend_extend (b : ModelBlock) (fs fs' : List Field) (as as' : List Attribute) :
    (b.extend fs as).extend fs' as' = b.extend (fs ++ fs') (as ++ as') := by
  simp [extend]

theorem addField_eq_extend (b : ModelBlock) (f : Field) : b.addField f = b.extend [f] [] := by
  simp [addField, extend]

theorem signatures_extend (b : ModelBlock) (fs : List Field) (as : List Attribute) :
    (b.extend fs as).signatures = b.signatures ++ fs.map Field.signature := by
  simp [signatures, extend]

theorem signatures_updateField {edit : Field → Field} (name : String)
    (same : ∀ g, (edit g).signature = g.signature) (b : ModelBlock) :
    (b.updateField name edit).signatures = b.signatures :=
  map_updateFirst same b.fields

/-! ### Looking up a field after an edit -/

/-- A field that is found stays found when fields are added at the end. -/
theorem field?_extend {b : ModelBlock} {name : String} {g : Field} (h : b.field? name = some g)
    (fs : List Field) (as : List Attribute) : (b.extend fs as).field? name = some g := by
  show (b.fields ++ fs).find? _ = some g
  rw [List.find?_append, show b.fields.find? _ = some g from h]
  rfl

theorem field?_extend_new {b : ModelBlock} {g : Field} (h : g.name ∉ b.fieldNames)
    (fs : List Field) (as : List Attribute) :
    (b.extend (g :: fs) as).field? g.name = some g := by
  have missing : b.fields.find? (fun f => f.name == g.name) = none := by
    rw [List.find?_eq_none]
    intro f hf same
    exact h (List.mem_map.2 ⟨f, hf, by simpa using same⟩)
  show (b.fields ++ g :: fs).find? _ = some g
  rw [List.find?_append, missing]
  simp

theorem field?_updateField_self {edit : Field → Field} (same : ∀ g, (edit g).name = g.name)
    (b : ModelBlock) (name : String) :
    (b.updateField name edit).field? name = (b.field? name).map edit := by
  show (updateFirst _ edit b.fields).find? _ = (b.fields.find? _).map edit
  induction b.fields with
  | nil => rfl
  | cons g rest ih =>
    unfold updateFirst
    by_cases here : g.name = name
    · simp [here, same]
    · simp [here, ih]

theorem field?_updateField_other {edit : Field → Field} (same : ∀ g, (edit g).name = g.name)
    (b : ModelBlock) {name other : String} (different : other ≠ name) :
    (b.updateField name edit).field? other = b.field? other := by
  show (updateFirst _ edit b.fields).find? _ = b.fields.find? _
  induction b.fields with
  | nil => rfl
  | cons g rest ih =>
    unfold updateFirst
    by_cases here : g.name = name
    · simp [here, same, different.symm]
    · by_cases there : g.name = other
      · simp [there, different]
      · simp [here, there, ih]

end ModelBlock

end Target

/-- The signature of a field under another name; nothing when its type is none of the target
    language. -/
def Field.signatureAs? (f : Field) (name : String) : Option (String × Target.FieldType) :=
  f.type.targetName?.map fun typeName => (name, ⟨typeName, f.type.array, f.type.optional⟩)

/-- A field leaves the names of the relations that widen it open: it has no relation attribute, or
    one that owns keys and gives no name. -/
def Field.leavesNameOpen (f : Field) : Prop :=
  ∀ relation, f.attribute? "@relation" = some relation →
    (relation.arg? "fields").isSome = true ∧ relation.arg? "name" = none

theorem Field.signatureAs?_rename {f : Field} {name : String}
    {signature : String × Target.FieldType} (h : f.signatureAs? name = some signature)
    (other : String) : f.signatureAs? other = some (other, signature.2) := by
  unfold Field.signatureAs? at h ⊢
  obtain ⟨typeName, typed, rfl⟩ := Option.map_eq_some_iff.1 h
  rw [typed]
  rfl

namespace Job

variable {j : Job} {m : Model} {shortOf : String → String}

/-! ## §2. The block a model starts with -/

/-- A field that compiles has a type, and its attributes are those that are kept. -/
theorem toTargetField_eq_ok {f : Field} {g : Target.Field} (h : j.toTargetField m f = .ok g) :
    ∃ attributes standIns,
      List.Forall₂ (fun a t => a.toTarget = .ok t) (f.attributes.filter (j.keepsAttribute m f))
        attributes ∧
      j.standIns f = .ok standIns ∧
      some g.signature = f.signatureAs? f.name ∧
      g.attributes = attributes ++ standIns := by
  unfold toTargetField at h
  unfold Field.signatureAs?
  cases typed : f.type.targetName? with
  | none =>
    rw [typed] at h
    cases h
  | some typeName =>
    rw [typed] at h
    obtain ⟨attributes, kept, h⟩ := bind_ok_iff.1 h
    obtain ⟨standIns, stand, h⟩ := bind_ok_iff.1 h
    cases pure_ok_iff.1 h
    exact ⟨attributes, standIns, mapM_ok_iff.1 kept, stand, rfl, rfl⟩

theorem name_toTargetField {f : Field} {g : Target.Field} (h : j.toTargetField m f = .ok g) :
    g.name = f.name := by
  obtain ⟨_, _, _, _, signature, _⟩ := toTargetField_eq_ok h
  obtain ⟨typeName, _, same⟩ := Option.map_eq_some_iff.1 signature.symm
  exact (congrArg (·.1) same).symm

theorem ownBlock_eq_ok {b : Target.ModelBlock} (h : j.ownBlock m = .ok b) :
    b.name = m.name ∧
      (m.fields.filter (j.emits m)).mapM (j.toTargetField m) = .ok b.fields := by
  unfold ownBlock at h
  obtain ⟨fields, ok, h⟩ := bind_ok_iff.1 h
  obtain ⟨attributes, _, h⟩ := bind_ok_iff.1 h
  cases pure_ok_iff.1 h
  exact ⟨rfl, ok⟩

/-- Compiled fields have the signatures of the fields they come from. -/
theorem signatures_of_forall₂ {fs : List Field} {gs : List Target.Field}
    (h : List.Forall₂ (fun f g => j.toTargetField m f = .ok g) fs gs) :
    gs.map (fun g => some g.signature) = fs.map fun f => f.signatureAs? f.name := by
  induction h with
  | nil => rfl
  | cons first _ ih =>
    obtain ⟨_, _, _, _, signature, _⟩ := toTargetField_eq_ok first
    rw [List.map_cons, List.map_cons, ih, signature]

theorem names_of_forall₂ {fs : List Field} {gs : List Target.Field}
    (h : List.Forall₂ (fun f g => j.toTargetField m f = .ok g) fs gs) :
    gs.map (·.name) = fs.map (·.name) := by
  induction h with
  | nil => rfl
  | cons first _ ih => rw [List.map_cons, List.map_cons, ih, name_toTargetField first]

theorem fieldNames_ownBlock {b : Target.ModelBlock} (h : j.ownBlock m = .ok b) :
    b.fieldNames = (m.fields.filter (j.emits m)).map (·.name) :=
  names_of_forall₂ (mapM_ok_iff.1 (ownBlock_eq_ok h).2)

/-! ## §3. Widening -/

/-- The keys that are copied when a field is widened: those of a relation that owns some. -/
def copiedKeys (j : Job) (m : Model) (f : Field) : List Field :=
  match f.attribute? "@relation" with
  | some relation =>
    if (relation.arg? "fields").isSome then (j.schema.keyPairs m f).map (·.1) else []
  | none => []

/-- The name asked for when a field of `m` is widened, or a key copied, for a descendant. -/
def widenedName (m concrete : Model) (f : Field) : String :=
  m.name ++ "_" ++ f.name ++ "_" ++ concrete.name

/-- The signatures that widening a field for one descendant adds: of the relation, then of its
    copied keys. -/
def widenedSignatures (j : Job) (identifier : String → String) (m : Model) (f : Field)
    (concrete : Model) : List (Option (String × Target.FieldType)) :=
  some (identifier (widenedName m concrete f), ⟨concrete.name, f.type.array, f.type.optional⟩) ::
    (j.copiedKeys m f).map fun key => key.signatureAs? (identifier (widenedName m concrete key))

theorem copyKey_eq_ok {concrete : Model} {key : Field} {b b' : Target.ModelBlock} {name : String}
    (h : (j.copyKey m concrete key b).answer shortOf = .ok (name, b')) :
    name = ofShort (shortOf (widenedName m concrete key)) ∧ ∃ copy constraints,
      b' = b.extend [copy] constraints ∧ some copy.signature = key.signatureAs? name := by
  unfold copyKey at h
  simp only [Compile.answer_bind, Compile.answer_ofExcept, Compile.answer_identifier,
    Compile.answer_pure] at h
  obtain ⟨field, ok, h⟩ := bind_ok_iff.1 h
  cases h
  obtain ⟨_, _, _, _, signature, _⟩ := toTargetField_eq_ok ok
  exact ⟨rfl, _, _, rfl, (Field.signatureAs?_rename signature.symm _).symm⟩

theorem copyKeys_eq_ok {concrete : Model} {keys : List Field} {b b' : Target.ModelBlock}
    {names : List String}
    (h : (j.copyKeys m concrete keys b).answer shortOf = .ok (names, b')) :
    ∃ copies constraints, b' = b.extend copies constraints ∧
      copies.map (fun copy => some copy.signature) = keys.map fun key =>
        key.signatureAs? (ofShort (shortOf (widenedName m concrete key))) := by
  induction keys generalizing b names with
  | nil =>
    cases h
    exact ⟨[], [], (Target.ModelBlock.extend_nil _).symm, rfl⟩
  | cons key keys ih =>
    unfold copyKeys at h
    simp only [Compile.answer_bind, Compile.answer_pure] at h
    obtain ⟨⟨name, block⟩, first, h⟩ := bind_ok_iff.1 h
    obtain ⟨⟨names, block'⟩, rest, h⟩ := bind_ok_iff.1 h
    cases h
    obtain ⟨rfl, copy, constraints, rfl, signature⟩ := copyKey_eq_ok first
    obtain ⟨copies, constraints', rfl, signatures⟩ := ih rest
    refine ⟨copy :: copies, constraints ++ constraints', ?_, ?_⟩
    · rw [Target.ModelBlock.extend_extend]
      rfl
    · rw [List.map_cons, List.map_cons, signature, signatures]

theorem widenedRelation_eq_ok {f : Field} {concrete : Model} {name : String}
    {b b' : Target.ModelBlock} {relation : Target.Attribute}
    (h : (j.widenedRelation m f concrete name b).answer shortOf = .ok (relation, b')) :
    ∃ copies constraints, b' = b.extend copies constraints ∧
      copies.map (fun copy => some copy.signature) = (j.copiedKeys m f).map (fun key =>
        key.signatureAs? (ofShort (shortOf (widenedName m concrete key)))) ∧
      (f.leavesNameOpen → ∃ args,
        relation = .of "@relation" (.positional (.string name) :: args)) := by
  unfold widenedRelation at h
  unfold copiedKeys Field.leavesNameOpen
  cases carried : f.attribute? "@relation" with
  | none =>
    rw [carried] at h
    cases h
    exact ⟨[], [], (Target.ModelBlock.extend_nil _).symm, rfl, fun _ => ⟨[], rfl⟩⟩
  | some written =>
    rw [carried] at h
    dsimp only at h ⊢
    split at h
    next keyless =>
      -- the attribute is taken over as it is written, with whatever name it gives
      simp only [Compile.answer_bind, Compile.answer_ofExcept, Compile.answer_pure] at h
      obtain ⟨taken, _, h⟩ := bind_ok_iff.1 h
      cases h
      have keyless : (written.arg? "fields").isSome = false := by simpa using keyless
      rw [keyless]
      refine ⟨[], [], (Target.ModelBlock.extend_nil _).symm, rfl, fun opens => ?_⟩
      rw [(opens written rfl).1] at keyless
      cases keyless
    next owning =>
      simp only [Compile.answer_bind, Compile.answer_pure] at h
      obtain ⟨⟨keys, block⟩, copied, h⟩ := bind_ok_iff.1 h
      cases h
      obtain ⟨copies, constraints, rfl, signatures⟩ := copyKeys_eq_ok copied
      have owning : (written.arg? "fields").isSome = true :=
        Option.isSome_iff_ne_none.2 (by simpa using owning)
      rw [owning]
      refine ⟨copies, constraints, rfl, signatures, fun opens => ?_⟩
      rw [(opens written rfl).2]
      exact ⟨_, rfl⟩

/-- **What widening a field for one descendant does**: it adds a field for the relation, with its
    copied keys behind it, and gives the first field of that name the relation attribute. -/
theorem widenFor_eq_ok {f : Field} {concrete : Model} {b b' : Target.ModelBlock}
    (h : (j.widenFor m f b concrete).answer shortOf = .ok b') :
    ∃ added copies constraints relation,
      added = { name := ofShort (shortOf (widenedName m concrete f)),
                type := ⟨concrete.name, f.type.array, f.type.optional⟩ } ∧
      b' = (b.extend (added :: copies) constraints).updateField added.name
        (·.addAttribute relation) ∧
      copies.map (fun copy => some copy.signature) = (j.copiedKeys m f).map (fun key =>
        key.signatureAs? (ofShort (shortOf (widenedName m concrete key)))) ∧
      (f.leavesNameOpen → ∃ args,
        relation = .of "@relation" (.positional (.string added.name) :: args)) := by
  unfold widenFor at h
  simp only [Compile.answer_bind, Compile.answer_identifier, Compile.answer_pure] at h
  obtain ⟨name, same, h⟩ := bind_ok_iff.1 h
  cases same
  obtain ⟨⟨relation, block⟩, widened, h⟩ := bind_ok_iff.1 h
  cases h
  obtain ⟨copies, constraints, rfl, signatures, opens⟩ := widenedRelation_eq_ok widened
  refine ⟨_, copies, constraints, relation, rfl, ?_, signatures, opens⟩
  rw [Target.ModelBlock.addField_eq_extend, Target.ModelBlock.extend_extend]
  rfl

/-- The fields of a model that are widened, each with the descendants it is widened for, in the
    order in which it is done. -/
def widenings (j : Job) (m : Model) : List (Field × Model) :=
  m.fields.flatMap fun f => (j.widenedTo m f).map fun concrete => (f, concrete)

theorem answer_widen (b : Target.ModelBlock) :
    (j.widen m b).answer shortOf = (j.widenings m).foldlM
      (fun b step => (j.widenFor m step.1 b step.2).answer shortOf) b := by
  unfold widen widenings
  rw [Compile.answer_foldlM]
  induction m.fields generalizing b with
  | nil => rfl
  | cons f fs ih =>
    rw [List.foldlM_cons, List.flatMap_cons, List.foldlM_append, List.foldlM_map]
    unfold widenField
    rw [Compile.answer_foldlM]
    exact bind_congr fun b => ih b

theorem signatures_widenFor {f : Field} {concrete : Model} {b b' : Target.ModelBlock}
    (h : (j.widenFor m f b concrete).answer shortOf = .ok b') :
    b'.signatures.map some = b.signatures.map some ++
      j.widenedSignatures (fun name => ofShort (shortOf name)) m f concrete := by
  obtain ⟨added, copies, constraints, relation, rfl, rfl, signatures, _⟩ := widenFor_eq_ok h
  rw [Target.ModelBlock.signatures_updateField _ (fun g => g.signature_addAttribute relation),
    Target.ModelBlock.signatures_extend, List.map_append, List.map_cons, List.map_cons,
    List.map_map]
  unfold widenedSignatures
  rw [← signatures]
  rfl

theorem signatures_widen {b b' : Target.ModelBlock} (h : (j.widen m b).answer shortOf = .ok b') :
    b'.signatures.map some = b.signatures.map some ++ (j.widenings m).flatMap fun step =>
      j.widenedSignatures (fun name => ofShort (shortOf name)) m step.1 step.2 := by
  rw [answer_widen] at h
  exact foldlM_ok_append (fun b => b.signatures.map some) h fun _ _ _ ok => signatures_widenFor ok

theorem names_of_signatures {gs : List Target.Field} {fs : List Field} {nameOf : Field → String}
    (h : gs.map (fun g => some g.signature) = fs.map fun f => f.signatureAs? (nameOf f)) :
    gs.map (·.name) = fs.map nameOf := by
  induction gs generalizing fs with
  | nil =>
    rw [List.map_nil, eq_comm, List.map_eq_nil_iff] at h
    rw [h]
    rfl
  | cons g gs ih =>
    obtain ⟨f, fs, rfl, first, rest⟩ := List.map_eq_cons_iff.1 h.symm
    obtain ⟨_, _, same⟩ := Option.map_eq_some_iff.1 first
    rw [List.map_cons, List.map_cons, ih rest.symm]
    exact congrArg (· :: _) (congrArg (·.1) same).symm

/-- Widening a field for one descendant adds the names made up for the relation and its keys. -/
theorem fieldNames_widenFor {f : Field} {concrete : Model} {b b' : Target.ModelBlock}
    (h : (j.widenFor m f b concrete).answer shortOf = .ok b') :
    b'.fieldNames = b.fieldNames ++
      (f :: j.copiedKeys m f).map fun x => ofShort (shortOf (widenedName m concrete x)) := by
  obtain ⟨added, copies, constraints, relation, rfl, rfl, signatures, _⟩ := widenFor_eq_ok h
  rw [Target.ModelBlock.fieldNames_eq,
    Target.ModelBlock.signatures_updateField _ (fun g => g.signature_addAttribute relation),
    Target.ModelBlock.signatures_extend, List.map_append, ← Target.ModelBlock.fieldNames_eq,
    List.map_cons, List.map_cons, List.map_cons, ← names_of_signatures signatures, List.map_map]
  rfl

theorem fieldNames_widenings {steps : List (Field × Model)} {b b' : Target.ModelBlock}
    (h : steps.foldlM (fun b step => (j.widenFor m step.1 b step.2).answer shortOf) b = .ok b') :
    b'.fieldNames = b.fieldNames ++ steps.flatMap fun step =>
      (step.1 :: j.copiedKeys m step.1).map fun x =>
        ofShort (shortOf (widenedName m step.2 x)) :=
  foldlM_ok_append Target.ModelBlock.fieldNames h fun _ _ _ ok => fieldNames_widenFor ok

theorem name_widen {b b' : Target.ModelBlock} (h : (j.widen m b).answer shortOf = .ok b') :
    b'.name = b.name := by
  rw [answer_widen] at h
  refine foldlM_ok_inv (P := fun c => c.name = b.name) h rfl ?_
  intro step _ c c' same ok
  obtain ⟨_, _, _, _, _, rfl, _⟩ := widenFor_eq_ok ok
  exact same

/-! ## §4. Naming relations -/

theorem signature_nameRelation (f : Field) (name : String) (g : Target.Field) :
    (nameRelation f name g).signature = g.signature := by
  unfold nameRelation
  split
  next =>
    split
    next => rfl
    next => rfl
  next => rfl

theorem name_nameRelation (f : Field) (name : String) (g : Target.Field) :
    (nameRelation f name g).name = g.name :=
  congrArg (·.1) (signature_nameRelation f name g)

/-- Naming the relation of a field changes nothing, or the first field of that name. -/
theorem nameInherited_cases (j : Job) (m : Model) (shortOf : String → String)
    (b : Target.ModelBlock) (f : Field) :
    (j.nameInherited m b f).answer shortOf = b ∨ ∃ related opposite,
      j.inheritedOpposite? m f = some (related, opposite) ∧
      (j.nameInherited m b f).answer shortOf = b.updateField f.name (nameRelation f
        (ofShort (shortOf (widenedName related m opposite)))) := by
  unfold nameInherited
  cases opposite : j.inheritedOpposite? m f with
  | none => exact Or.inl rfl
  | some pair =>
    dsimp only
    split
    next => exact Or.inl rfl
    next =>
      refine Or.inr ⟨pair.1, pair.2, rfl, ?_⟩
      simp [widenedName]

/-- **What every naming of a relation keeps, naming all relations of a model keeps.** -/
theorem nameRelations_inv {P : Target.ModelBlock → Prop}
    (step : ∀ b f name, P b → P (b.updateField f.name (nameRelation f name)))
    {b : Target.ModelBlock} (start : P b) : P ((j.nameRelations m b).answer shortOf) := by
  unfold nameRelations
  rw [Identifier.Asking.answer_foldlM]
  induction m.fields generalizing b with
  | nil => exact start
  | cons f fs ih =>
    refine ih ?_
    change P ((j.nameInherited m b f).answer shortOf)
    rcases nameInherited_cases j m shortOf b f with unchanged | ⟨related, opposite, _, changed⟩
    · rw [unchanged]
      exact start
    · rw [changed]
      exact step b f _ start

theorem view_nameRelations {β : Type} (view : Target.ModelBlock → β)
    (same : ∀ b f name, view (b.updateField f.name (nameRelation f name)) = view b)
    (b : Target.ModelBlock) : view ((j.nameRelations m b).answer shortOf) = view b :=
  nameRelations_inv (P := fun c => view c = view b) (fun c f name h => (same c f name).trans h) rfl

theorem signatures_nameRelations (b : Target.ModelBlock) :
    ((j.nameRelations m b).answer shortOf).signatures = b.signatures :=
  view_nameRelations _ (fun b f name =>
    Target.ModelBlock.signatures_updateField _ (signature_nameRelation f name) b) b

theorem name_nameRelations (b : Target.ModelBlock) :
    ((j.nameRelations m b).answer shortOf).name = b.name :=
  view_nameRelations (·.name) (fun _ _ _ => rfl) b

theorem fieldNames_nameRelations (b : Target.ModelBlock) :
    ((j.nameRelations m b).answer shortOf).fieldNames = b.fieldNames := by
  rw [Target.ModelBlock.fieldNames_eq, signatures_nameRelations,
    ← Target.ModelBlock.fieldNames_eq]

end Job

end DelegateSchema
