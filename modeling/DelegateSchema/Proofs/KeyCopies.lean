/-
  DelegateSchema.Proofs.KeyCopies — what a logical block is made of.

  Widening copies the keys of a relation for every descendant.  A copy is the compiled key under
  another name, with its attributes, and the unique constraints of the model that list the key are
  copied along.  Later edits of the block touch relation attributes only.  So, relation attributes
  apart, a logical block is known exactly: the compiled fields and attributes of its model, then
  what widening adds, step by step.

  Main results:
    * `copyKeys_eq_extend` — what copying keys adds to a block,
    * `bareFields_logical`, `attributes_logical` — the fields and the attributes of a logical block,
    * `forall₂_usagesOf` — the attributes of one name on a compiled field are the usages of that
      name on the field, one by one,
    * `flatMap_generatedFields` — what is read off attributes that widening adds.
-/
import DelegateSchema.Proofs.Columns
import DelegateSchema.Proofs.DistinctNames
import DelegateSchema.Proofs.RelationNames

namespace DelegateSchema

open Identifier (Memory ofShort)

/-! ## §1. Relation attributes apart -/

namespace Target

/-- Where only elements that satisfy a condition are changed, and still satisfy it, the others
    stay as they are. -/
theorem filter_updateFirst {α : Type} {p : α → Bool} {edit : α → α}
    (keeps : ∀ x, p x = true → p (edit x) = true) (xs : List α) :
    (updateFirst p edit xs).filter (fun x => !p x) = xs.filter fun x => !p x := by
  induction xs with
  | nil => rfl
  | cons x xs ih =>
    unfold updateFirst
    split
    next here => simp [here, keeps x here]
    next => rw [List.filter_cons, List.filter_cons, ih]

namespace Field

/-- The field without its relation attributes. -/
def bare (g : Field) : Field :=
  { g with attributes := g.attributes.filter fun a => !a.isNamed "@relation" }

theorem bare_addAttribute {a : Attribute} (isRelation : a.isNamed "@relation" = true) (g : Field) :
    (g.addAttribute a).bare = g.bare := by
  simp [bare, addAttribute, isRelation]

theorem bare_updateAttribute {edit : NamedAttribute → NamedAttribute}
    (same : ∀ a, (edit a).name = a.name) (g : Field) :
    (g.updateAttribute "@relation" edit).bare = g.bare := by
  unfold bare updateAttribute
  dsimp only
  rw [filter_updateFirst]
  intro a isRelation
  cases a with
  | named a =>
    unfold Attribute.isNamed at isRelation ⊢
    dsimp only at isRelation ⊢
    rw [same]
    exact isRelation
  | verbatim text => exact isRelation

/-- The field as the copy of a key: under another name, which also names its constraint. -/
def copiedAs (g : Field) (name : String) : Field :=
  { g with name }.updateAttribute "@unique" (Job.nameConstraint (name ++ "_unique"))

end Field

namespace ModelBlock

/-- The fields of a block without their relation attributes. -/
def bareFields (b : ModelBlock) : List Field :=
  b.fields.map Field.bare

theorem bareFields_extend (b : ModelBlock) (fs : List Field) (as : List Attribute) :
    (b.extend fs as).bareFields = b.bareFields ++ fs.map Field.bare :=
  List.map_append

theorem bareFields_updateField {edit : Field → Field} (name : String)
    (same : ∀ g, (edit g).bare = g.bare) (b : ModelBlock) :
    (b.updateField name edit).bareFields = b.bareFields :=
  map_updateFirst same b.fields

end ModelBlock

end Target

/-! ## §2. Usages that are carried over -/

/-- What an expression gives as the value of an argument. -/
inductive Expression.Gives : Expression → Target.Value → Prop
  | string (s : String) : Gives (.literal (.string s)) (.string s)
  | number (n : Number) : Gives (.literal (.number n)) (.number n.text)
  | boolean (b : Bool) : Gives (.literal (.boolean b)) (.boolean b)
  | array {items : List Expression} {values : List Target.Value}
      (each : List.Forall₂ (fun item value => item.toValue = .ok value) items values) :
      Gives (.array items) (.array values)
  | field (target : String) (args : List (Argument Expression)) (texts : List (Argument String)) :
      Gives (.reference target args) (.field target texts)
  | call (function : String) (args : List (Argument Expression)) (texts : List String) :
      Gives (.invocation function args) (.call function texts)

theorem Expression.itemsToValues_eq_mapM (items : List Expression) :
    itemsToValues items = items.mapM toValue := by
  induction items with
  | nil => rfl
  | cons item rest ih => rw [itemsToValues, List.mapM_cons, ih]

theorem Expression.gives_of_toValue {e : Expression} {v : Target.Value} (h : e.toValue = .ok v) :
    e.Gives v := by
  cases e with
  | literal l =>
    cases l with
    | string s =>
      cases h
      exact Gives.string s
    | number n =>
      cases h
      exact Gives.number n
    | boolean b =>
      cases h
      exact Gives.boolean b
  | array items =>
    obtain ⟨values, each, same⟩ := bind_ok_iff.1 h
    cases pure_ok_iff.1 same
    rw [itemsToValues_eq_mapM] at each
    exact Gives.array (mapM_ok_iff.1 each)
  | reference target args =>
    cases h
    exact Gives.field target args _
  | invocation function args =>
    obtain ⟨texts, _, same⟩ := bind_ok_iff.1 h
    cases pure_ok_iff.1 same
    exact Gives.call function args texts
  | member operand name => cases h
  | unary op operand => cases h
  | binary left op right => cases h
  | this => cases h
  | null => cases h

/-- What can be seen of expressions can be seen of their values, one by one. -/
theorem Expression.filterMap_toValue {γ : Type} {view : Target.Value → Option γ}
    {view' : Expression → Option γ} (same : ∀ {e v}, e.toValue = .ok v → view v = view' e)
    {es : List Expression} {vs : List Target.Value}
    (h : List.Forall₂ (fun e v => e.toValue = .ok v) es vs) :
    vs.filterMap view = es.filterMap view' := by
  induction h with
  | nil => rfl
  | cons ok _ ih => rw [List.filterMap_cons, List.filterMap_cons, ih, same ok]

/-- A usage of a name that stands for no text becomes an attribute of that name, argument by
    argument. -/
theorem Attribute.toTarget_eq_ok {a : Attribute} {t : Target.Attribute} {name : String}
    (noText : Attribute.isPassthrough name = false) (named : a.isNamed name = true)
    (h : a.toTarget = .ok t) :
    ∃ args, t = .of name args ∧ List.Forall₂ (fun (arg : AttributeArg) (arg' : Target.Arg) =>
      arg'.name = arg.name ∧ arg.value.toValue = .ok arg'.value) a.args args := by
  have canonical : a.canonicalName = some name := by simpa [Attribute.isNamed] using named
  unfold Attribute.toTarget at h
  rw [canonical] at h
  dsimp only [Option.getD_some] at h
  rw [noText, if_neg Bool.false_ne_true] at h
  obtain ⟨args, ok, h⟩ := bind_ok_iff.1 h
  cases pure_ok_iff.1 h
  refine ⟨args, rfl, (mapM_ok_iff.1 ok).imp ?_⟩
  intro arg arg' compiled
  obtain ⟨value, ok, same⟩ := bind_ok_iff.1 compiled
  cases pure_ok_iff.1 same
  exact ⟨rfl, ok⟩

/-- The usages of an attribute on a field that belong in the target schema. -/
def Field.emitted (f : Field) (name : String) : List Attribute :=
  f.attributes.filter fun a => a.isTarget && a.isNamed name

namespace Target

/-- The attribute, if it has the given name. -/
def Attribute.as? (name : String) : Attribute → Option NamedAttribute
  | .named a => if a.name == name then some a else none
  | .verbatim _ => none

/-- The attributes of the given name on a field. -/
def Field.usagesOf (g : Field) (name : String) : List NamedAttribute :=
  g.attributes.filterMap (Attribute.as? name)

@[simp]
theorem Attribute.as?_named (name : String) (a : NamedAttribute) :
    (Attribute.named a).as? name = if a.name == name then some a else none := rfl

theorem Attribute.isNamed_named (name : String) (a : NamedAttribute) :
    (Attribute.named a).isNamed name = (a.name == name) := rfl

theorem Attribute.as?_eq_none {name : String} {a : Attribute} (h : a.isNamed name = false) :
    a.as? name = none := by
  cases a with
  | named a => simpa [Attribute.isNamed_named] using h
  | verbatim text => rfl

namespace Field

theorem usagesOf_bare {name : String} (other : name ≠ "@relation") (g : Field) :
    g.bare.usagesOf name = g.usagesOf name := by
  unfold usagesOf bare
  rw [List.filterMap_filter]
  refine List.filterMap_congr fun a _ => ?_
  by_cases relation : a.isNamed "@relation" = true
  · have not_here : a.isNamed name = false := by
      cases a with
      | named a =>
        rw [Attribute.isNamed_named, beq_iff_eq] at relation
        rw [Attribute.isNamed_named, relation]
        exact beq_eq_false_iff_ne.2 other.symm
      | verbatim text => rfl
    simp [relation, Attribute.as?_eq_none not_here]
  · simp [relation]

/-- An edit of the first attribute of a name changes that one and no other. -/
theorem usagesOf_updateAttribute {edit : NamedAttribute → NamedAttribute}
    (same : ∀ a, (edit a).name = a.name) (g : Field) (edited name : String) :
    (g.updateAttribute edited edit).usagesOf name =
      if name = edited then (g.usagesOf name).modifyHead edit else g.usagesOf name := by
  unfold usagesOf updateAttribute
  dsimp only
  induction g.attributes with
  | nil => simp [updateFirst]
  | cons a rest ih =>
    unfold updateFirst
    cases a with
    | verbatim text =>
      rw [if_neg (by simp [Attribute.isNamed])]
      exact ih
    | named a =>
      by_cases here : a.name = edited
      · rw [if_pos (by simpa [Attribute.isNamed_named] using here)]
        by_cases asked : name = edited
        · simp [here, asked, same]
        · simp [here, asked, same, Ne.symm asked]
      · rw [if_neg (by simpa [Attribute.isNamed_named] using here), List.filterMap_cons,
          List.filterMap_cons, ih]
        by_cases asked : name = edited
        · simp [asked, here]
        · simp [asked]

end Field

end Target

namespace Job

variable {j : Job} {m : Model} {shortOf : String → String}

theorem name_nameConstraint (constraint : String) (a : Target.NamedAttribute) :
    (nameConstraint constraint a).name = a.name := by
  unfold nameConstraint
  split
  next => rfl
  next => rfl

theorem usagesOf_copiedAs (g : Target.Field) (copy name : String) :
    (g.copiedAs copy).usagesOf name =
      if name = "@unique" then (g.usagesOf name).modifyHead (nameConstraint (copy ++ "_unique"))
      else g.usagesOf name :=
  Target.Field.usagesOf_updateAttribute (name_nameConstraint _) { g with name := copy } "@unique"
    name

/-- **The attributes of one name on a compiled field are the usages of that name on the field**,
    one by one; only defaults and texts are treated in another way. -/
theorem forall₂_usagesOf {f : Field} {g : Target.Field} {name : String}
    (noDefault : name ≠ "@default") (noText : Attribute.isPassthrough name = false)
    (h : j.toTargetField m f = .ok g) :
    List.Forall₂ (fun a t => a.isNamed name = true ∧ a.toTarget = .ok (.named t)) (f.emitted name)
      (g.usagesOf name) := by
  obtain ⟨carried, standIns, kept, stands, _, attributes⟩ := toTargetField_eq_ok h
  have none_standing : standIns.filterMap (Target.Attribute.as? name) = [] := by
    rw [List.filterMap_eq_nil_iff]
    intro t ht
    exact Target.Attribute.as?_eq_none (isNamed_standIns noDefault stands t ht)
  have emitted : f.emitted name =
      (f.attributes.filter (j.keepsAttribute m f)).filter fun a => a.isNamed name := by
    unfold Field.emitted
    rw [List.filter_filter]
    refine List.filter_congr fun a _ => ?_
    rw [Bool.eq_iff_iff, Bool.and_eq_true, Bool.and_eq_true]
    constructor
    · intro ⟨target, named⟩
      exact ⟨named, keepsAttribute_of_isNamed noDefault target named⟩
    · intro ⟨named, keeps⟩
      exact ⟨isTarget_of_keepsAttribute keeps, named⟩
  have targets : ∀ a ∈ f.attributes.filter (j.keepsAttribute m f), a.isTarget = true :=
    fun a ha => isTarget_of_keepsAttribute (List.mem_filter.1 ha).2
  unfold Target.Field.usagesOf
  rw [attributes, List.filterMap_append, none_standing, List.append_nil, emitted,
    ← List.filterMap_eq_filter]
  refine forall₂_filterMap ((List.forall₂_and_left _ _).2 ⟨targets, kept⟩) ?_
  intro a t ⟨target, ok⟩
  cases named : a.isNamed name with
  | false =>
    rw [Target.Attribute.as?_eq_none ((Attribute.isNamed_toTarget noText target ok).trans named)]
    simp only [Option.guard, named, Bool.false_eq_true, if_false]
    exact Option.Rel.none
  | true =>
    obtain ⟨args, rfl, _⟩ := Attribute.toTarget_eq_ok noText named ok
    simp only [Option.guard, named, if_true, Target.Attribute.of, Target.Attribute.as?_named,
      beq_self_eq_true]
    exact Option.Rel.some ⟨named, ok⟩

/-! ## §3. What widening adds -/

/-- The copy of a key for a descendant. -/
def copyOf? (j : Job) (identifier : String → String) (m concrete : Model) (key : Field) :
    Option Target.Field :=
  (j.toTargetField m key).toOption.map (·.copiedAs (identifier (widenedName m concrete key)))

/-- The unique constraints that come with the copy of a key for a descendant. -/
def constraintsFor (identifier : String → String) (m concrete : Model) (key : Field) :
    List Target.Attribute :=
  (m.attributesNamed "@@unique").filterMap
    (copiedConstraint? key.name (identifier (widenedName m concrete key)))

/-- The fields that widening a field for a descendant adds, relation attributes apart. -/
def fieldsFor (j : Job) (identifier : String → String) (m : Model) (f : Field) (concrete : Model) :
    List Target.Field :=
  { name := identifier (widenedName m concrete f)
    type := ⟨concrete.name, f.type.array, f.type.optional⟩ } ::
  (j.copiedKeys m f).filterMap (j.copyOf? identifier m concrete)

theorem copyKey_eq_extend {concrete : Model} {key : Field} {b b' : Target.ModelBlock}
    {name : String} (h : (j.copyKey m concrete key b).answer shortOf = .ok (name, b')) :
    ∃ copy, j.copyOf? (fun name => ofShort (shortOf name)) m concrete key = some copy ∧
      b' = b.extend [copy]
        (constraintsFor (fun name => ofShort (shortOf name)) m concrete key) := by
  unfold copyKey at h
  simp only [Compile.answer_bind, Compile.answer_ofExcept, Compile.answer_identifier,
    Compile.answer_pure] at h
  obtain ⟨field, ok, h⟩ := bind_ok_iff.1 h
  cases h
  unfold copyOf?
  rw [ok]
  exact ⟨_, rfl, rfl⟩

/-- **What copying keys adds to a block**: the copies, and the constraints that come with each. -/
theorem copyKeys_eq_extend {concrete : Model} {keys : List Field} {b b' : Target.ModelBlock}
    {names : List String}
    (h : (j.copyKeys m concrete keys b).answer shortOf = .ok (names, b')) :
    b' = b.extend (keys.filterMap (j.copyOf? (fun name => ofShort (shortOf name)) m concrete))
      (keys.flatMap (constraintsFor (fun name => ofShort (shortOf name)) m concrete)) := by
  induction keys generalizing b names with
  | nil =>
    cases h
    exact (Target.ModelBlock.extend_nil _).symm
  | cons key keys ih =>
    unfold copyKeys at h
    simp only [Compile.answer_bind, Compile.answer_pure] at h
    obtain ⟨⟨name, block⟩, first, h⟩ := bind_ok_iff.1 h
    obtain ⟨⟨names, block'⟩, rest, h⟩ := bind_ok_iff.1 h
    cases h
    obtain ⟨copy, isCopy, rfl⟩ := copyKey_eq_extend first
    rw [ih rest, Target.ModelBlock.extend_extend, List.filterMap_cons, isCopy, List.flatMap_cons]
    rfl

theorem widenedRelation_eq_extend {f : Field} {concrete : Model} {name : String}
    {b b' : Target.ModelBlock} {relation : Target.Attribute}
    (h : (j.widenedRelation m f concrete name b).answer shortOf = .ok (relation, b')) :
    relation.isNamed "@relation" = true ∧
      b' = b.extend
        ((j.copiedKeys m f).filterMap (j.copyOf? (fun name => ofShort (shortOf name)) m concrete))
        ((j.copiedKeys m f).flatMap
          (constraintsFor (fun name => ofShort (shortOf name)) m concrete)) := by
  unfold widenedRelation at h
  unfold copiedKeys
  cases carried : f.attribute? "@relation" with
  | none =>
    rw [carried] at h
    cases h
    exact ⟨rfl, (Target.ModelBlock.extend_nil _).symm⟩
  | some written =>
    rw [carried] at h
    dsimp only at h ⊢
    split at h
    next keyless =>
      simp only [Compile.answer_bind, Compile.answer_ofExcept, Compile.answer_pure] at h
      obtain ⟨taken, ok, h⟩ := bind_ok_iff.1 h
      cases h
      have named : written.isNamed "@relation" = true := by simpa using List.find?_some carried
      obtain ⟨args, rfl, _⟩ := Attribute.toTarget_eq_ok (by decide) named ok
      have keyless : (written.arg? "fields").isSome = false := by simpa using keyless
      rw [keyless]
      exact ⟨rfl, (Target.ModelBlock.extend_nil _).symm⟩
    next owning =>
      simp only [Compile.answer_bind, Compile.answer_pure] at h
      obtain ⟨⟨keys, block⟩, copied, h⟩ := bind_ok_iff.1 h
      cases h
      have owning : (written.arg? "fields").isSome = true :=
        Option.isSome_iff_ne_none.2 (by simpa using owning)
      rw [owning]
      exact ⟨rfl, copyKeys_eq_extend copied⟩

/-- **What widening a field for one descendant adds**, relation attributes apart. -/
theorem widenFor_adds {f : Field} {concrete : Model} {b b' : Target.ModelBlock}
    (h : (j.widenFor m f b concrete).answer shortOf = .ok b') :
    b'.bareFields = b.bareFields ++
        (j.fieldsFor (fun name => ofShort (shortOf name)) m f concrete).map Target.Field.bare ∧
      b'.attributes = b.attributes ++ (j.copiedKeys m f).flatMap
        (constraintsFor (fun name => ofShort (shortOf name)) m concrete) := by
  unfold widenFor at h
  simp only [Compile.answer_bind, Compile.answer_identifier, Compile.answer_pure] at h
  obtain ⟨name, same, h⟩ := bind_ok_iff.1 h
  cases same
  obtain ⟨⟨relation, block⟩, widened, h⟩ := bind_ok_iff.1 h
  cases h
  obtain ⟨isRelation, rfl⟩ := widenedRelation_eq_extend widened
  rw [Target.ModelBlock.bareFields_updateField _ (Target.Field.bare_addAttribute isRelation),
    Target.ModelBlock.addField_eq_extend, Target.ModelBlock.extend_extend,
    Target.ModelBlock.bareFields_extend]
  exact ⟨rfl, rfl⟩

/-! ## §4. Logical blocks -/

theorem bare_nameRelation (f : Field) (name : String) (g : Target.Field) :
    (nameRelation f name g).bare = g.bare := by
  unfold nameRelation
  split
  next =>
    split
    next => rfl
    next =>
      refine Target.Field.bare_updateAttribute ?_ g
      intro a
      rfl
  next => exact Target.Field.bare_addAttribute rfl g

/-- Every concrete model has a block, compiled from a block of its own. -/
theorem exists_own_and_block {d : Document} {memory memory' : Memory} {out : Target.Schema}
    (resolved : Schema.ofDocument d = .ok j.schema) (built : j.build memory = (.ok out, memory'))
    (hm : m ∈ j.concreteModels) :
    ∃ start block, j.ownBlock m = .ok start ∧ out.findModel? m.name = some block ∧
      (j.compileModel m).answer memory'.shorten = .ok block := by
  have distinct := Schema.modelNames_nodup_of_ofDocument resolved
  obtain ⟨known, concrete⟩ := mem_concreteModels.1 hm
  obtain ⟨block, found, ok⟩ := exists_block built distinct known concrete
  obtain ⟨start, own, _⟩ := compileModel_eq_ok ok
  exact ⟨start, block, own, found, ok⟩

/-- All fields that widening adds to a model, relation attributes apart. -/
def addedFields (j : Job) (identifier : String → String) (m : Model) : List Target.Field :=
  (j.widenings m).flatMap fun step => j.fieldsFor identifier m step.1 step.2

/-- All unique constraints that widening adds to a model. -/
def addedConstraints (j : Job) (identifier : String → String) (m : Model) :
    List Target.Attribute :=
  (j.widenings m).flatMap fun step =>
    (j.copiedKeys m step.1).flatMap (constraintsFor identifier m step.2)

section Logical

variable {memory : Memory} {start block : Target.ModelBlock} (logical : j.mode = .logical)
  (own : j.ownBlock m = .ok start) (h : (j.compileModel m).answer memory.shorten = .ok block)
include logical own h

theorem exists_widened : ∃ widened,
    (j.widenings m).foldlM (fun b step => (j.widenFor m step.1 b step.2).answer memory.shorten)
      start = .ok widened ∧ block = (j.nameRelations m widened).answer memory.shorten := by
  obtain ⟨start', own', rest⟩ := compileModel_eq_ok h
  rw [own] at own'
  cases own'
  obtain ⟨widened, ok, named⟩ := completeBlock_logical logical rest
  rw [answer_widen] at ok
  exact ⟨widened, ok, named⟩

/-- **The fields of a logical block**, relation attributes apart: those of the model, and then
    what widening adds. -/
theorem bareFields_logical : block.bareFields =
    start.bareFields ++ (j.addedFields memory.identifier m).map Target.Field.bare := by
  have identifiers : memory.identifier = fun name => ofShort (memory.shorten name) :=
    funext memory.identifier_eq
  obtain ⟨widened, ok, rfl⟩ := exists_widened logical own h
  rw [view_nameRelations Target.ModelBlock.bareFields fun b f name =>
      Target.ModelBlock.bareFields_updateField _ (bare_nameRelation f name) b,
    foldlM_ok_append Target.ModelBlock.bareFields ok fun _ _ _ step => (widenFor_adds step).1,
    identifiers]
  unfold addedFields
  rw [List.map_flatMap]

/-- **The attributes of a logical block**: those of the model, and then the constraints that come
    with copied keys. -/
theorem attributes_logical :
    block.attributes = start.attributes ++ j.addedConstraints memory.identifier m := by
  have identifiers : memory.identifier = fun name => ofShort (memory.shorten name) :=
    funext memory.identifier_eq
  obtain ⟨widened, ok, rfl⟩ := exists_widened logical own h
  rw [view_nameRelations Target.ModelBlock.attributes fun b f name => rfl,
    foldlM_ok_append Target.ModelBlock.attributes ok fun _ _ _ step => (widenFor_adds step).2,
    identifiers]
  rfl

end Logical

/-! ## §5. What is read off a logical block -/

/-- The keys that widening copies for a model, each with the descendant it is copied for. -/
def copyings (j : Job) (m : Model) : List (Model × Field) :=
  (j.widenings m).flatMap fun step => (j.copiedKeys m step.1).map fun key => (step.2, key)

theorem mem_fields_of_copyings {entry : Model × Field} (h : entry ∈ j.copyings m) :
    entry.2 ∈ m.fields := by
  obtain ⟨step, _, h⟩ := List.mem_flatMap.1 h
  obtain ⟨key, hkey, rfl⟩ := List.mem_map.1 h
  exact mem_fields_of_copiedKeys hkey

theorem isEmpty_usagesOf {f : Field} {g : Target.Field} {name : String}
    (noDefault : name ≠ "@default") (noText : Attribute.isPassthrough name = false)
    (h : j.toTargetField m f = .ok g) :
    (g.usagesOf name).isEmpty = (f.emitted name).isEmpty := by
  have lengths := (forall₂_usagesOf noDefault noText h).length_eq
  rw [Bool.eq_iff_iff, List.isEmpty_iff_length_eq_zero, List.isEmpty_iff_length_eq_zero, lengths]

theorem isEmpty_usagesOf_copiedAs (g : Target.Field) (copy name : String) :
    ((g.copiedAs copy).usagesOf name).isEmpty = (g.usagesOf name).isEmpty := by
  rw [usagesOf_copiedAs]
  split
  next => cases g.usagesOf name <;> rfl
  next => rfl

/-- What can be read off the attributes of a field, relation attributes apart. -/
structure Reading (γ : Type) where
  read : Target.Field → List γ
  read_bare : ∀ g, read g.bare = read g
  read_nil : ∀ g, g.attributes = [] → read g = []

namespace Reading

variable {γ : Type}

theorem flatMap_bare (r : Reading γ) (gs : List Target.Field) :
    (gs.map Target.Field.bare).flatMap r.read = gs.flatMap r.read := by
  rw [List.flatMap_map]
  exact List.flatMap_congr fun g _ => r.read_bare g

/-- The new relations have nothing to be read, so all that widening adds is read off copies. -/
theorem flatMap_addedFields (r : Reading γ) (identifier : String → String) :
    (j.addedFields identifier m).flatMap r.read = (j.copyings m).flatMap fun entry =>
      (j.copyOf? identifier m entry.1 entry.2).toList.flatMap r.read := by
  unfold addedFields copyings
  rw [List.flatMap_assoc, List.flatMap_assoc]
  refine List.flatMap_congr ?_
  intro step _
  unfold fieldsFor
  rw [List.flatMap_cons, r.read_nil _ rfl, List.nil_append, List.flatMap_map,
    List.filterMap_eq_flatMap_toList, List.flatMap_assoc]

end Reading

section Logical

variable {memory : Memory} {start block : Target.ModelBlock} (logical : j.mode = .logical)
  (own : j.ownBlock m = .ok start)
include logical own

theorem forall₂_ownBlock :
    List.Forall₂ (fun f g => j.toTargetField m f = .ok g) m.fields start.fields := by
  have compiled := (ownBlock_eq_ok own).2
  rw [filter_emits_logical logical] at compiled
  exact mapM_ok_iff.1 compiled

/-- Every key that is to be copied compiles, and so has a copy. -/
theorem exists_copy {entry : Model × Field} (h : entry ∈ j.copyings m)
    (identifier : String → String) : ∃ g ∈ start.fields, j.toTargetField m entry.2 = .ok g ∧
      j.copyOf? identifier m entry.1 entry.2 =
        some (g.copiedAs (identifier (widenedName m entry.1 entry.2))) := by
  obtain ⟨g, hg, ok⟩ :=
    forall₂_exists_right (forall₂_ownBlock logical own) (mem_fields_of_copyings h)
  refine ⟨g, hg, ok, ?_⟩
  unfold copyOf?
  rw [ok]
  rfl

/-- What is read off the generated fields of a logical block. -/
theorem flatMap_generatedFields {γ : Type} (r : Reading γ)
    (h : (j.compileModel m).answer memory.shorten = .ok block) :
    (j.generatedFields m block).flatMap r.read = (j.copyings m).flatMap fun entry =>
      (j.copyOf? memory.identifier m entry.1 entry.2).toList.flatMap r.read := by
  have fields : block.fields.map Target.Field.bare = start.fields.map Target.Field.bare ++
      (j.addedFields memory.identifier m).map Target.Field.bare :=
    bareFields_logical logical own h
  have generated : (j.generatedFields m block).map Target.Field.bare =
      (j.addedFields memory.identifier m).map Target.Field.bare := by
    unfold generatedFields
    rw [filter_emits_logical logical, (forall₂_ownBlock logical own).length_eq, List.map_drop,
      fields, List.drop_left' (List.length_map _)]
  rw [← r.flatMap_bare, generated, r.flatMap_bare, r.flatMap_addedFields]

end Logical

end Job

end DelegateSchema
