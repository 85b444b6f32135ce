/-
  DelegateSchema.Proofs.RelationNames — the two ends of a widened relation.

  A model inherits a relation from a delegate, and on the other side the field that points back at
  the delegate is widened for the model.  The two ends are compiled in different blocks and by
  different passes: one names the inherited relation, the other the field that it adds.  Both ask
  for the name of the same three parts, so whichever comes first, the memory answers both alike.

  What has to be shown is that the names also stay where they are put:

    • `field?_widenings`, `field?_nameRelations_other` — edits leave the fields of other names as
      they are,
    • `relationName?_nameRelation` — a compiled field has the relation attribute that its name is
      put into, or gets one,
    • `field?_inherited`, `field?_widened` — so each end has the name in the final block.
-/
import DelegateSchema.Document.Encoding
import DelegateSchema.Proofs.Usages
import DelegateSchema.Proofs.Widening

namespace DelegateSchema

open Identifier (Memory ofShort)

/-! ## §1. The name of a relation -/

namespace Target

/-- The first argument that is passed by position. -/
def NamedAttribute.firstPositional? (a : NamedAttribute) : Option Value :=
  (a.args.find? (·.name.isNone)).map (·.value)

/-- The name of a field's relation: the first positional argument of its relation attribute. -/
def Field.relationName? (f : Field) : Option Value :=
  (f.attribute? "@relation").bind (·.firstPositional?)

theorem Field.attribute?_eq_none_iff (f : Field) (name : String) :
    f.attribute? name = none ↔ ∀ a ∈ f.attributes, a.isNamed name = false := by
  unfold Field.attribute?
  rw [List.findSome?_eq_none_iff]
  refine forall_congr' fun a => imp_congr_right fun _ => ?_
  cases a with
  | named a => simp [Attribute.isNamed]
  | verbatim text => simp [Attribute.isNamed]

theorem Field.attribute?_addAttribute {f : Field} {name : String} (h : f.attribute? name = none)
    (args : List Arg) : (f.addAttribute (.of name args)).attribute? name = some ⟨name, args⟩ := by
  unfold Field.attribute? at h ⊢
  show (f.attributes ++ [_]).findSome? _ = _
  rw [List.findSome?_append, h]
  simp [Attribute.of]

theorem Field.attribute?_updateAttribute {edit : NamedAttribute → NamedAttribute}
    (same : ∀ a, (edit a).name = a.name) (f : Field) (name : String) :
    (f.updateAttribute name edit).attribute? name = (f.attribute? name).map edit := by
  unfold Field.attribute? Field.updateAttribute
  dsimp only
  induction f.attributes with
  | nil => rfl
  | cons a rest ih =>
    unfold updateFirst
    cases a with
    | named a =>
      by_cases here : a.name = name
      · simp [Attribute.isNamed, here, same]
      · have other : (a.name == name) = false := beq_eq_false_iff_ne.2 here
        rw [if_neg (by simp [Attribute.isNamed, other])]
        simp only [List.findSome?_cons, other, Bool.false_eq_true, if_false]
        exact ih
    | verbatim text =>
      rw [if_neg (by simp [Attribute.isNamed])]
      simp only [List.findSome?_cons]
      exact ih

end Target

/-! ## §2. Compiled relations -/

/-- A usage that is carried over keeps its name, unless it is text. -/
theorem Attribute.isNamed_toTarget {a : Attribute} {t : Target.Attribute} {name : String}
    (noText : Attribute.isPassthrough name = false) (target : a.isTarget = true)
    (h : a.toTarget = .ok t) : t.isNamed name = a.isNamed name := by
  unfold Attribute.isTarget at target
  cases identity : a.resolved with
  | none =>
    rw [identity] at target
    cases target
  | some i =>
    have canonical : a.canonicalName = some i.name := by
      unfold Attribute.canonicalName
      rw [identity]
      rfl
    unfold Attribute.toTarget at h
    unfold Attribute.isNamed
    rw [canonical] at h ⊢
    dsimp only [Option.getD_some] at h
    split at h
    next text =>
      -- the usage becomes text, which has no name, and it was not of this name before
      have other : i.name ≠ name := by
        intro same
        rw [same, noText] at text
        cases text
      split at h
      next =>
        split at h
        next => cases h
        next =>
          cases h
          simp [Target.Attribute.isNamed, other]
      next => cases h
    next =>
      obtain ⟨args, _, h⟩ := bind_ok_iff.1 h
      cases pure_ok_iff.1 h
      simp [Target.Attribute.isNamed, Target.Attribute.of]

namespace Job

variable {j : Job} {m : Model} {shortOf : String → String}

theorem isTarget_of_keepsAttribute {f : Field} {a : Attribute}
    (h : j.keepsAttribute m f a = true) : a.isTarget = true := by
  unfold keepsAttribute at h
  simp only [Bool.and_eq_true] at h
  exact h.1.1

/-- Only defaults are left out among the usages that belong in the target schema. -/
theorem keepsAttribute_of_isNamed {f : Field} {a : Attribute} {name : String}
    (noDefault : name ≠ "@default") (target : a.isTarget = true) (named : a.isNamed name = true) :
    j.keepsAttribute m f a = true := by
  have other : a.isNamed "@default" = false := by
    unfold Attribute.isNamed at named ⊢
    rw [beq_iff_eq.1 named]
    simpa using noDefault
  unfold keepsAttribute Attribute.isAuthDefault
  simp [target, other]

theorem isNamed_standIns {f : Field} {standIns : List Target.Attribute} {name : String}
    (noDefault : name ≠ "@default") (h : j.standIns f = .ok standIns) :
    ∀ t ∈ standIns, t.isNamed name = false := by
  unfold Job.standIns at h
  split at h
  next =>
    obtain ⟨t, ok, h⟩ := bind_ok_iff.1 h
    cases pure_ok_iff.1 h
    intro t' ht'
    rw [List.mem_singleton.1 ht']
    unfold FieldType.standIn at ok
    split at ok
    next =>
      cases ok
      exact beq_eq_false_iff_ne.2 noDefault.symm
    next => cases ok
  next =>
    cases h
    intro t ht
    cases ht

/-- A compiled field has a relation attribute exactly when a usage on the field is carried over as
    one. -/
theorem hasRelation_toTargetField {f : Field} {g : Target.Field}
    (h : j.toTargetField m f = .ok g) :
    (g.attribute? "@relation").isSome = true ↔
      ∃ a ∈ f.attributes, a.isTarget = true ∧ a.isNamed "@relation" = true := by
  obtain ⟨carried, standIns, kept, stands, _, attributes⟩ := toTargetField_eq_ok h
  rw [Option.isSome_iff_ne_none, ne_eq, Target.Field.attribute?_eq_none_iff, attributes]
  constructor
  · intro some_named
    by_contra none_carried
    refine some_named fun t ht => ?_
    rcases List.mem_append.1 ht with ht | ht
    · obtain ⟨a, ha, ok⟩ := forall₂_exists_left kept ht
      obtain ⟨ha, keeps⟩ := List.mem_filter.1 ha
      have target := isTarget_of_keepsAttribute keeps
      rw [Attribute.isNamed_toTarget (by decide) target ok]
      cases relation : a.isNamed "@relation" with
      | false => rfl
      | true => exact absurd ⟨a, ha, target, relation⟩ none_carried
    · exact isNamed_standIns (by decide) stands t ht
  · intro ⟨a, ha, target, relation⟩ none_named
    have keeps := keepsAttribute_of_isNamed (j := j) (m := m) (f := f) (by decide) target relation
    obtain ⟨t, ht, ok⟩ := forall₂_exists_right kept (List.mem_filter.2 ⟨ha, keeps⟩)
    have named := none_named t (List.mem_append_left _ ht)
    rw [Attribute.isNamed_toTarget (by decide) target ok, relation] at named
    cases named

/-- **Naming the relation of a compiled field gives it that name**, if the field leaves the name
    open and its relation is carried over. -/
theorem relationName?_nameRelation {f : Field} {g : Target.Field}
    (h : j.toTargetField m f = .ok g)
    (carried : ∀ a ∈ f.attributes, a.isNamed "@relation" = true → a.isTarget = true)
    (unnamed : ∀ relation, f.attribute? "@relation" = some relation → relation.arg? "name" = none)
    (name : String) : (nameRelation f name g).relationName? = some (.string name) := by
  unfold nameRelation Target.Field.relationName?
  cases written : f.attribute? "@relation" with
  | none =>
    have none_carried : g.attribute? "@relation" = none := by
      rw [← Option.not_isSome_iff_eq_none, hasRelation_toTargetField h]
      intro ⟨a, ha, _, relation⟩
      have := List.find?_eq_none.1 written a ha
      exact this relation
    dsimp only
    rw [Target.Field.attribute?_addAttribute none_carried]
    rfl
  | some relation =>
    have named : relation.isNamed "@relation" = true := by simpa using List.find?_some written
    have member := List.mem_of_find?_eq_some written
    have has := (hasRelation_toTargetField h).2 ⟨relation, member, carried _ member named, named⟩
    obtain ⟨a, ha⟩ := Option.isSome_iff_exists.1 has
    dsimp only
    rw [unnamed relation written, Option.isSome_none, if_neg Bool.false_ne_true,
      Target.Field.attribute?_updateAttribute, ha]
    · rfl
    · intro a
      rfl

/-! ## §3. Fields of other names -/

/-- Widening leaves the fields alone whose names it does not give out. -/
theorem field?_widenFor {f : Field} {concrete : Model} {b b' : Target.ModelBlock} {name : String}
    {g : Target.Field} (h : (j.widenFor m f b concrete).answer shortOf = .ok b')
    (held : b.field? name = some g)
    (other : name ≠ ofShort (shortOf (widenedName m concrete f))) : b'.field? name = some g := by
  obtain ⟨added, copies, constraints, relation, rfl, rfl, _, _⟩ := widenFor_eq_ok h
  have names : ∀ g : Target.Field, (g.addAttribute relation).name = g.name := fun _ => rfl
  rw [Target.ModelBlock.field?_updateField_other names _ other]
  exact Target.ModelBlock.field?_extend held _ _

theorem field?_widenings {steps : List (Field × Model)} {b b' : Target.ModelBlock} {name : String}
    {g : Target.Field}
    (h : steps.foldlM (fun b step => (j.widenFor m step.1 b step.2).answer shortOf) b = .ok b')
    (held : b.field? name = some g)
    (other : ∀ step ∈ steps, name ≠ ofShort (shortOf (widenedName m step.2 step.1))) :
    b'.field? name = some g := by
  refine foldlM_ok_inv (P := fun c => c.field? name = some g) h held ?_
  intro step hstep c c' held ok
  exact field?_widenFor ok held (other step hstep)

/-- Naming the relation of a field leaves the fields of other names alone. -/
theorem field?_nameInherited_other (b : Target.ModelBlock) {f : Field} {name : String}
    (other : name ≠ f.name) :
    ((j.nameInherited m b f).answer shortOf).field? name = b.field? name := by
  rcases nameInherited_cases j m shortOf b f with unchanged | ⟨related, opposite, _, changed⟩
  · rw [unchanged]
  · rw [changed]
    exact Target.ModelBlock.field?_updateField_other (name_nameRelation f _) b other

theorem field?_nameInherited_self {b : Target.ModelBlock} {f : Field} {g : Target.Field}
    {related : Model} {opposite : Field}
    (h : j.inheritedOpposite? m f = some (related, opposite)) (held : b.field? f.name = some g) :
    ((j.nameInherited m b f).answer shortOf).field? f.name =
      some (nameRelation f (ofShort (shortOf (widenedName related m opposite))) g) := by
  have changed : (j.nameInherited m b f).answer shortOf = b.updateField f.name
      (nameRelation f (ofShort (shortOf (widenedName related m opposite)))) := by
    unfold nameInherited
    rw [h]
    dsimp only
    rw [held]
    simp [widenedName]
  rw [changed, Target.ModelBlock.field?_updateField_self (name_nameRelation f _), held]
  rfl

theorem field?_nameRelations_other {fs : List Field} (b : Target.ModelBlock) {name : String}
    (other : ∀ f ∈ fs, name ≠ f.name) :
    (fs.foldl (fun b f => (j.nameInherited m b f).answer shortOf) b).field? name
      = b.field? name := by
  induction fs generalizing b with
  | nil => rfl
  | cons f fs ih =>
    rw [List.foldl_cons, ih _ fun g hg => other g (List.mem_cons_of_mem _ hg)]
    exact field?_nameInherited_other b (other f List.mem_cons_self)

/-! ## §4. The two ends -/

/-- **The end that a model inherits** has its name in the final block: widening does not touch the
    field, and of all namings only its own does. -/
theorem field?_inherited {f : Field} {before after : List Field} {block : Target.ModelBlock}
    {related : Model} {opposite : Field} (logical : j.mode = .logical)
    (h : (j.compileModel m).answer shortOf = .ok block) (fields : m.fields = before ++ f :: after)
    (others : ∀ g ∈ before ++ after, f.name ≠ g.name)
    (free : ∀ step ∈ j.widenings m, f.name ≠ ofShort (shortOf (widenedName m step.2 step.1)))
    (ends : j.inheritedOpposite? m f = some (related, opposite)) :
    ∃ g, j.toTargetField m f = .ok g ∧ block.field? f.name =
      some (nameRelation f (ofShort (shortOf (widenedName related m opposite))) g) := by
  obtain ⟨start, own, rest⟩ := compileModel_eq_ok h
  obtain ⟨widened, ok, rfl⟩ := completeBlock_logical logical rest
  rw [answer_widen] at ok
  have first : m.fields.find? (fun g => g.name == f.name) = some f := by
    have missing : before.find? (fun g => g.name == f.name) = none := by
      rw [List.find?_eq_none]
      intro g hg same
      exact others g (List.mem_append_left _ hg) (beq_iff_eq.1 same).symm
    rw [fields, List.find?_append, missing]
    simp
  have compiled := mapM_ok_iff.1 (ownBlock_eq_ok own).2
  rw [filter_emits_logical logical] at compiled
  have names : ∀ f' g, j.toTargetField m f' = .ok g → (f'.name == f.name) = (g.name == f.name) := by
    intro f' g ok
    rw [name_toTargetField ok]
  obtain ⟨g, held, hg⟩ := forall₂_find? compiled names first
  refine ⟨g, hg, ?_⟩
  have held := field?_widenings ok held free
  -- the namings before and after its own concern fields of other names
  unfold nameRelations
  rw [Identifier.Asking.answer_foldlM, fields, List.foldl_append, List.foldl_cons]
  rw [field?_nameRelations_other _ fun g hg => others g (List.mem_append_right _ hg)]
  apply field?_nameInherited_self ends
  rw [field?_nameRelations_other _ fun g hg => others g (List.mem_append_left _ hg)]
  exact held

/-- Where the name is new, widening adds a field of that name with a relation of that name. -/
theorem field?_widenFor_new {f : Field} {concrete : Model} {b b' : Target.ModelBlock}
    (h : (j.widenFor m f b concrete).answer shortOf = .ok b')
    (new : ofShort (shortOf (widenedName m concrete f)) ∉ b.fieldNames)
    (opens : f.leavesNameOpen) :
    ∃ g, b'.field? (ofShort (shortOf (widenedName m concrete f))) = some g ∧
      g.type = ⟨concrete.name, f.type.array, f.type.optional⟩ ∧
      g.relationName? = some (.string (ofShort (shortOf (widenedName m concrete f)))) := by
  obtain ⟨added, copies, constraints, relation, isAdded, rfl, _, opened⟩ := widenFor_eq_ok h
  obtain ⟨args, isRelation⟩ := opened opens
  have named : added.name = ofShort (shortOf (widenedName m concrete f)) := by rw [isAdded]
  have names : ∀ g : Target.Field, (g.addAttribute relation).name = g.name := fun _ => rfl
  rw [← named] at new ⊢
  refine ⟨added.addAttribute relation, ?_, ?_, ?_⟩
  · rw [Target.ModelBlock.field?_updateField_self names, Target.ModelBlock.field?_extend_new new]
    rfl
  · rw [isAdded]
    rfl
  · have fresh : added.attribute? "@relation" = none := by
      rw [isAdded]
      rfl
    unfold Target.Field.relationName?
    rw [isRelation, Target.Field.attribute?_addAttribute fresh]
    rfl

/-- **The end that widening adds** has its name in the final block: where the names of the block
    are distinct, no other edit touches the field. -/
theorem field?_widened {f : Field} {concrete : Model} {block : Target.ModelBlock}
    (logical : j.mode = .logical) (h : (j.compileModel m).answer shortOf = .ok block)
    (widens : (f, concrete) ∈ j.widenings m) (opens : f.leavesNameOpen)
    (distinct : block.fieldNames.Nodup) :
    ∃ g, block.field? (ofShort (shortOf (widenedName m concrete f))) = some g ∧
      g.type = ⟨concrete.name, f.type.array, f.type.optional⟩ ∧
      g.relationName? = some (.string (ofShort (shortOf (widenedName m concrete f)))) := by
  obtain ⟨start, own, rest⟩ := compileModel_eq_ok h
  obtain ⟨widened, ok, rfl⟩ := completeBlock_logical logical rest
  rw [answer_widen] at ok
  obtain ⟨before, after, steps⟩ := List.append_of_mem widens
  rw [steps, List.foldlM_append] at ok
  obtain ⟨b, sofar, ok⟩ := bind_ok_iff.1 ok
  obtain ⟨b', step, ok⟩ := bind_ok_iff.1 ok
  -- the names of the final block: those of the model, what was added before, the added field and
  -- its keys, and what was added later
  have names := fieldNames_widenings sofar
  have later := fieldNames_widenings ok
  rw [fieldNames_nameRelations, later, fieldNames_widenFor step, List.append_assoc, List.map_cons,
    List.cons_append, List.nodup_append, List.nodup_cons] at distinct
  obtain ⟨_, ⟨notLater, _⟩, notBefore⟩ := distinct
  have new : ofShort (shortOf (widenedName m concrete f)) ∉ b.fieldNames := by
    intro old
    exact notBefore _ old _ List.mem_cons_self rfl
  have ownNames : ∀ f' ∈ m.fields, ofShort (shortOf (widenedName m concrete f)) ≠ f'.name := by
    intro f' hf' same
    have started : f'.name ∈ start.fieldNames := by
      rw [fieldNames_ownBlock own, filter_emits_logical logical]
      exact Model.mem_fieldNames hf'
    rw [same, names] at new
    exact new (List.mem_append_left _ started)
  obtain ⟨g, held, type, name⟩ := field?_widenFor_new step new opens
  refine ⟨g, ?_, type, name⟩
  unfold nameRelations
  rw [Identifier.Asking.answer_foldlM, field?_nameRelations_other _ ownNames]
  refine field?_widenings ok held ?_
  intro step hstep same
  refine notLater (List.mem_append_right _ (List.mem_flatMap.2 ⟨step, hstep, ?_⟩))
  rw [same]
  exact List.mem_cons_self

/-! ## §5. Both ends -/

theorem start_isPrefix (short : String) : Identifier.start.toList <+: (ofShort short).toList := by
  unfold ofShort
  rw [String.toList_append, String.toList_append, List.append_assoc]
  exact List.prefix_append _ _

/-- The field that points back at a delegate is widened for the models below the delegate. -/
theorem mem_widenings_of_opposite {c related base : Model} {f baseField opposite : Field}
    (distinct : j.schema.modelNames.Nodup) (hc : c ∈ j.concreteModels)
    (above : j.schema.findUp? c f.name = some (base, baseField))
    (back : Schema.oppositeField? related base baseField = some opposite)
    (own : j.schema.storingDelegate? related opposite = none) :
    (opposite, c) ∈ j.widenings related := by
  obtain ⟨known, concrete⟩ := mem_concreteModels.1 hc
  obtain ⟨delegate, _, found, below⟩ :=
    Schema.findUp?_spec (Schema.model?_of_mem distinct known) above
  have member : opposite ∈ related.fields := List.mem_of_find?_eq_some back
  have points : j.schema.relationTarget? opposite = some base := by
    have reference := List.find?_some back
    simp only [Bool.and_eq_true, beq_iff_eq] at reference
    unfold Schema.relationTarget?
    rw [reference.1]
    exact found
  have widened : c ∈ j.widenedTo related opposite :=
    (mem_widenedTo distinct opposite c).2 ⟨own, base, points, delegate, known, concrete, below⟩
  exact List.mem_flatMap.2 ⟨opposite, member, List.mem_map.2 ⟨c, widened, rfl⟩⟩

/-- **The two ends of a widened relation have one name.**  The model `c` has the field `f` from a
    super type, and `f` leaves its relation unnamed.  The delegate `base` that holds the field is
    found above `c`, and `opposite` is the field of the related model that points back at it; it
    is no field of another delegate and leaves the name open as well.  Then, in the output, `f` in
    the block of `c` and the field that widens `opposite` for `c` carry the same relation name. -/
theorem widened_relation_ends_agree {d : Document} {j : Job} {memory memory' : Memory}
    {out : Target.Schema} (read : d.Read) (resolved : Schema.ofDocument d = .ok j.schema)
    (plain : d.flattened = false) (kept : ∀ decl ∈ d.attributes, decl.name ≠ "@relation")
    (unprefixed : ∀ m ∈ modelsOf d.declarations, ∀ f ∈ m.fields,
      ¬ Identifier.start.toList <+: f.name.toList)
    (logical : j.mode = .logical) (built : j.build memory = (.ok out, memory'))
    {declared c : Model} {f : Field} (hdeclared : declared ∈ modelsOf d.declarations)
    (hc : c ∈ j.concreteModels) (same : c.name = declared.name) (hf : f ∈ c.fields)
    (inherited : f.name ∉ declared.fieldNames)
    (unnamed : ∀ relation, f.attribute? "@relation" = some relation → relation.arg? "name" = none)
    {related : Model} {relatedBlock : Target.ModelBlock}
    (target : j.schema.relationTarget? f = some related)
    (hrelated : out.findModel? related.name = some relatedBlock)
    (distinct : relatedBlock.fieldNames.Nodup) {base : Model} {baseField opposite : Field}
    (above : j.schema.findUp? c f.name = some (base, baseField))
    (back : Schema.oppositeField? related base baseField = some opposite)
    (own : j.schema.storingDelegate? related opposite = none) (opens : opposite.leavesNameOpen) :
    ∃ block g g' name,
      out.findModel? c.name = some block ∧ block.field? f.name = some g ∧
      some g.signature = f.signatureAs? f.name ∧
      relatedBlock.field? (memory'.identifier (widenedName related c opposite)) = some g' ∧
      g'.type = ⟨c.name, opposite.type.array, opposite.type.optional⟩ ∧
      g.relationName? = some (.string name) ∧ g'.relationName? = some (.string name) := by
  have modelNames := Schema.modelNames_nodup_of_ofDocument resolved
  obtain ⟨known, concrete⟩ := mem_concreteModels.1 hc
  -- the end that widening adds
  have relatedKnown : related ∈ j.schema.models := by
    obtain ⟨_, _, found⟩ := Option.bind_eq_some_iff.1 target
    exact mem_of_findModel? found
  have relatedCompiled := (compileModel_of_findModel? built modelNames relatedKnown hrelated).2
  obtain ⟨g', hg', type, name'⟩ := field?_widened logical relatedCompiled
    (mem_widenings_of_opposite modelNames hc above back own) opens distinct
  -- the end that is inherited
  obtain ⟨block, hblock, compiled⟩ := exists_block built modelNames known concrete
  obtain ⟨marked, before, after, fields, others⟩ :=
    Schema.exists_split_inherited resolved plain hdeclared known same hf inherited
  have ends : j.inheritedOpposite? c f = some (related, opposite) := by
    obtain ⟨origin, horigin⟩ := Option.isSome_iff_exists.1 marked
    unfold inheritedOpposite?
    simp [target, horigin, above, back]
  have free : ∀ step ∈ j.widenings c,
      f.name ≠ ofShort (memory'.shorten (widenedName c step.2 step.1)) := by
    -- identifiers that are given out start in a way that no field of the document does
    intro step _ generated
    have plainName : ¬ Identifier.start.toList <+: f.name.toList :=
      Schema.forall_fields_of_ofDocument (Q := fun f => ¬ Identifier.start.toList <+: f.name.toList)
        resolved plain unprefixed (fun _ _ h _ => h) (fun _ _ h => h) known f hf
    rw [generated] at plainName
    exact plainName (start_isPrefix _)
  obtain ⟨source, hsource, hg⟩ := field?_inherited logical compiled fields others free ends
  have carried : ∀ a ∈ f.attributes, a.isNamed "@relation" = true → a.isTarget = true :=
    fun a ha => Schema.isTarget_of_relation resolved plain read.unresolved kept known hf ha
  refine ⟨block, _, g', _, hblock, hg, ?_, ?_, type,
    relationName?_nameRelation hsource carried unnamed _, name'⟩
  · rw [signature_nameRelation]
    obtain ⟨_, _, _, _, signature, _⟩ := toTargetField_eq_ok hsource
    exact signature
  · rw [Memory.identifier_eq]
    exact hg'

/-- In the clinic, as it is written down and read again, the owner of a dog and the dogs of an
    owner are the two ends of one relation. -/
theorem clinic_ends_agree :
    ∃ (d : Document) (j : Job) (memory' : Memory) (out : Target.Schema),
      Document.ofJson clinic.toJson = .ok d ∧ Schema.ofDocument d = .ok j.schema ∧
      j.mode = .logical ∧ j.build (Memory.ofLength Identifier.standardLength) = (.ok out, memory') ∧
      ∃ dog owner g g' name,
        out.findModel? "Dog" = some dog ∧ dog.field? "owner" = some g ∧
        out.findModel? "Owner" = some owner ∧
        owner.field? (memory'.identifier "Owner_pets_Dog") = some g' ∧
        g.relationName? = some (.string name) ∧ g'.relationName? = some (.string name) := by
  have reads : (Document.ofJson clinic.toJson).toOption.any (fun d =>
      !d.flattened && d.attributes.all (fun decl => decl.name != "@relation") &&
      (modelsOf d.declarations).all (fun m =>
        m.fields.all fun f => decide (¬ Identifier.start.toList <+: f.name.toList)) &&
      (modelsOf d.declarations).any (fun m => m.name == "Dog" && !m.fieldNames.contains "owner") &&
      d.buildsTo .logical fun j out => j.concreteModels.any fun c => c.name == "Dog" &&
        c.fields.any fun f => f.name == "owner" &&
          (f.attribute? "@relation").all (fun relation => (relation.arg? "name").isNone) &&
          (j.schema.relationTarget? f).any fun related => related.name == "Owner" &&
            (out.findModel? related.name).any (fun block => decide block.fieldNames.Nodup) &&
            (j.schema.findUp? c f.name).any fun above =>
              (Schema.oppositeField? related above.1 above.2).any fun opposite =>
                opposite.name == "pets" && (j.schema.storingDelegate? related opposite).isNone &&
                (opposite.attribute? "@relation").isNone) = true := by
    decide +kernel
  simp only [Option.any_eq_true, Bool.and_eq_true, Bool.not_eq_true', bne_iff_ne,
    List.all_eq_true, List.any_eq_true, beq_iff_eq, decide_eq_true_eq] at reads
  obtain ⟨d, readBack,
    ⟨⟨⟨plain, kept⟩, unprefixed⟩, declared, hdeclared, isDog, inherited⟩, builds⟩ := reads
  obtain ⟨j, out, memory', resolved, logical, built, test⟩ := Document.exists_build builds
  simp only [Option.any_eq_true, Option.all_eq_true, Bool.and_eq_true, List.any_eq_true,
    beq_iff_eq, decide_eq_true_eq, Option.isNone_iff_eq_none] at test
  obtain ⟨c, hc, isDog', f, hf, ⟨isOwner, unnamed⟩, related, target,
    ⟨isRelated, owner, howner, distinct⟩, above, habove, opposite, back,
    ⟨isPets, own⟩, bare⟩ := test
  have read : Document.ofJson clinic.toJson = .ok d := by
    cases result : Document.ofJson clinic.toJson with
    | error fault =>
      rw [result] at readBack
      cases readBack
    | ok d' =>
      rw [result] at readBack
      cases readBack
      rfl
  have opens : opposite.leavesNameOpen := by
    intro relation written
    rw [bare] at written
    cases written
  obtain ⟨dog, g, g', name, hdog, hg, _, hg', _, names⟩ :=
    widened_relation_ends_agree (Or.inl ⟨_, read⟩) resolved plain kept unprefixed logical built
      hdeclared hc (isDog'.trans isDog.symm) hf (by simpa [isOwner] using inherited) unnamed target
      howner distinct habove back own opens
  rw [isDog'] at hdog
  rw [isOwner] at hg
  rw [isRelated] at howner
  have isName : widenedName related c opposite = "Owner_pets_Dog" := by
    unfold widenedName
    rw [isRelated, isPets, isDog']
    rfl
  rw [isName] at hg'
  exact ⟨d, j, memory', out, read, resolved, logical, built, dog, owner, g, g', name, hdog, hg,
    howner, hg', names⟩

end Job

end DelegateSchema
