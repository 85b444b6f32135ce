/-
  DelegateSchema.Proofs.ClosedRelations — which relations of the output refer to what is there.

  A relation attribute ties fields of its own block to fields of the block that it refers to, all
  of them by name.  Nothing checks these names against the blocks.  Widened relations come out
  right: their keys are copied into the same block, and what they refer to is handed down to every
  descendant.  Physical links need not.  A link repeats the identifier of the delegate, but whether
  a subtype still emits these fields is asked of its *own* identifier, and a delegate without a
  block is linked to all the same.

  Main results:
    * `emits_iff_of_delegate` — which columns of a delegate a model below it repeats,
    * `linkClosed_baseLink_iff` — from it, when one link is closed,
    * `repeats_of_keysFromFirst` — a model that takes its identifier from its first super type
      repeats it,
    * `physical_link_closed_iff` — which physical links are closed,
    * `dog_link_dangles` — one that is not,
    * `holdsWidened_compileModel` — the relation built for a descendant stays in the block,
    * `widened_keys_closed` — all widened relations that own keys are closed.
-/
import DelegateSchema.Proofs.Columns
import DelegateSchema.Proofs.DistinctNames
import DelegateSchema.Proofs.MergedFields

namespace DelegateSchema

open Identifier (Memory ofShort)

/-! ## §1. What a relation refers to -/

namespace Target

/-- The name of the field that a value refers to, if it is one. -/
def Value.fieldName? : Value → Option String
  | .field name _ => some name
  | _ => none

theorem Value.filterMap_fieldRef (names : List String) :
    (names.map fieldRef).filterMap fieldName? = names := by
  rw [List.filterMap_map]
  exact List.filterMap_some

namespace NamedAttribute

/-- The fields that an argument of an attribute lists. -/
def fieldList (a : NamedAttribute) (param : String) : List String :=
  match a.arg? param with
  | some ⟨_, .array items⟩ => items.filterMap Value.fieldName?
  | _ => []

/-- A relation is closed over two blocks: it ties fields of the one to fields of the other. -/
structure ClosedOver (a : NamedAttribute) (lower upper : List String) : Prop where
  fields : ∀ name ∈ a.fieldList "fields", name ∈ lower
  references : ∀ name ∈ a.fieldList "references", name ∈ upper

theorem fieldList_of_arg? {a : NamedAttribute} {param : String} {names : List String}
    (found : a.arg? param = some (.named param (.fieldRefs names))) :
    a.fieldList param = names := by
  unfold fieldList
  rw [found]
  exact Value.filterMap_fieldRef names

end NamedAttribute

end Target

/-! ## §2. Identifiers -/

namespace Model

variable {m : Model}

/-- The first field marked `mark`, or else the fields that the first `list` names. -/
def keyFields (m : Model) (mark list : String) : List Field :=
  match m.fields.find? (·.hasAttribute mark) with
  | some f => [f]
  | none => m.listedFields list

theorem idFields_eq : m.idFields = m.keyFields "@id" "@@id" :=
  rfl

theorem mem_fields_of_mem_keyFields {mark list : String} {f : Field}
    (h : f ∈ m.keyFields mark list) : f ∈ m.fields := by
  unfold keyFields at h
  split at h
  next first found =>
    rw [List.mem_singleton.1 h]
    exact List.mem_of_find?_eq_some found
  next =>
    unfold listedFields at h
    split at h
    next => exact Job.mem_fields_of_referencedFields h
    next => cases h

theorem mem_fields_of_mem_idFields {f : Field} (h : f ∈ m.idFields) : f ∈ m.fields :=
  mem_fields_of_mem_keyFields (idFields_eq ▸ h)

/-- The identifier of a model identifies its rows. -/
theorem isIdField_of_mem_idFields {f : Field} (h : f ∈ m.idFields) : m.isIdField f = true := by
  unfold idFields at h
  unfold isIdField
  split at h
  next key found =>
    have marked : key.hasAttribute "@id" = true := by simpa using List.find?_some found
    rw [List.mem_singleton.1 h, marked]
    rfl
  next =>
    have listed : (m.listedFields "@@id").any (·.name == f.name) = true :=
      List.any_eq_true.2 ⟨f, h, beq_self_eq_true _⟩
    simp [listed]

/-- A list of references names the same fields in every model that has them. -/
theorem exists_referencedFields {c : Model} (names : ∀ name ∈ m.fieldNames, name ∈ c.fieldNames)
    {listed : Option Expression} {f : Field} (h : f ∈ m.referencedFields listed) :
    ∃ g ∈ c.referencedFields listed, g.name = f.name := by
  unfold referencedFields at h ⊢
  split at h
  next items =>
    obtain ⟨item, hitem, found⟩ := List.mem_filterMap.1 h
    split at found
    next target args =>
      have named : f.name = target := name_of_field? found
      have has : target ∈ m.fieldNames := named ▸ mem_fieldNames (mem_of_field? found)
      obtain ⟨g, hg⟩ := Option.isSome_iff_exists.1 ((c.field?_isSome_iff target).2 (names _ has))
      refine ⟨g, List.mem_filterMap.2 ⟨_, hitem, hg⟩, ?_⟩
      rw [named]
      exact name_of_field? hg
    next => cases found
  next => cases h

theorem field?_of_mem {f : Field} (distinct : m.fieldNames.Nodup) (hf : f ∈ m.fields) :
    m.field? f.name = some f := by
  obtain ⟨g, found⟩ := Option.isSome_iff_exists.1
    ((m.field?_isSome_iff f.name).2 (mem_fieldNames hf))
  rw [found, List.inj_on_of_nodup_map distinct (mem_of_field? found) hf (name_of_field? found)]

/-- **An identifier that is taken over identifies rows below**, if the model lists the same compound
    identifier or there is none. -/
theorem isIdField_inheritedVia {c : Model}
    (names : ∀ name ∈ m.fieldNames, name ∈ c.fieldNames)
    (usages : ∀ a, m.attribute? "@@id" = some a → c.attribute? "@@id" = some a)
    {key : Field} (hkey : key ∈ m.idFields) (base : String) :
    c.isIdField (key.inheritedVia base) = true := by
  unfold idFields at hkey
  unfold isIdField
  split at hkey
  next first found =>
    have marked : key.hasAttribute "@id" = true := by
      rw [List.mem_singleton.1 hkey]
      simpa using List.find?_some found
    exact if_pos marked
  next =>
    unfold listedFields at hkey
    split at hkey
    next usage isUsage =>
      obtain ⟨g, hg, same⟩ := exists_referencedFields names hkey
      have listed :
          (c.listedFields "@@id").any (·.name == (key.inheritedVia base).name) = true := by
        unfold listedFields
        rw [usages usage isUsage]
        exact List.any_eq_true.2 ⟨g, hg, beq_iff_eq.2 same⟩
      simp only [listed, if_true, ite_self]
    next => cases hkey

/-- A model has a column of that name in its own block even where a delegate above it has one:
    it declares the column itself, or the column identifies its rows. -/
def Repeats (m : Model) (name : String) : Prop :=
  ∃ f ∈ m.fields, f.name = name ∧ (f.inheritedFrom = none ∨ m.isIdField f = true)

end Model

/-! ## §3. An identifier from the first super type -/

/-- A compound identifier is handed down by every model. -/
theorem Model.passesOn_of_isNamed_id (base : Model) {a : Attribute}
    (named : a.isNamed "@@id" = true) : base.passesOn a = true := by
  have name : a.canonicalName = some "@@id" := by simpa [Attribute.isNamed] using named
  unfold Model.passesOn
  rw [name]
  simp [neverInherited, keptByDelegate]

/-- A model without a compound identifier of its own has that of its first super type. -/
theorem attribute?_withInherited {own base : Model} {bases : List Model} {a : Attribute}
    (undeclared : own.attribute? "@@id" = none) (found : base.attribute? "@@id" = some a) :
    (own.withInherited (Inherited.ofBases own (base :: bases))).attribute? "@@id" = some a := by
  have handedDown : (base.attributes.filter base.passesOn).find? (·.isNamed "@@id") = some a := by
    rw [List.find?_filter, ← found]
    unfold Model.attribute?
    congr 1
    funext b
    cases named : b.isNamed "@@id" with
    | false => simp
    | true => simp [base.passesOn_of_isNamed_id named]
  show (own.attributes ++ (Inherited.ofBases own (base :: bases)).attributes).find? _ = some a
  have none_own : own.attributes.find? (·.isNamed "@@id") = none := undeclared
  rw [List.find?_append, none_own, Inherited.attributes_ofBases, List.flatMap_cons,
    List.find?_append, handedDown]
  rfl

/-- The model `c` takes its identifier from its first super type `base`, in a document without
    repeated or marked fields: it gives no compound identifier itself. -/
structure Document.KeysFromFirst (d : Document) (c : Model) (base : String) : Prop where
  first : c.superTypes.head? = some base
  distinct : ∀ u ∈ modelsOf d.declarations, u.fieldNames.Nodup
  unmarked : ∀ u ∈ modelsOf d.declarations, ∀ f ∈ u.fields, f.inheritedFrom = none
  undeclared : ∀ u ∈ modelsOf d.declarations, u.name = c.name →
    ∀ a ∈ u.attributes, ∀ a', d.registry.resolve a = .ok a' → a'.isNamed "@@id" = false

/-- **A model that takes its identifier from its first super type repeats it.** -/
theorem repeats_of_keysFromFirst {d : Document} {s : Schema}
    (resolved : Schema.ofDocument d = .ok s) (plain : d.flattened = false) {c b : Model}
    (hc : c ∈ s.models) (hb : s.model? b.name = some b) (keys : d.KeysFromFirst c b.name)
    {key : Field} (hkey : key ∈ b.idFields) : c.Repeats key.name := by
  obtain ⟨declared, hdeclared, own, bases, resolves, found, rfl⟩ :=
    Schema.exists_declared resolved plain hc
  have distinct : b.fieldNames.Nodup := by
    obtain ⟨u, hu, own', bases', resolves', _, rfl⟩ :=
      Schema.exists_declared resolved plain (mem_of_findModel? hb)
    refine nodup_fieldNames_withInherited bases' ?_
    rw [resolves'.fieldNames_eq]
    exact keys.distinct u hu
  -- the first of the merged super types is `b`
  obtain ⟨rest, superTypes⟩ : ∃ rest, own.superTypes = b.name :: rest :=
    List.head?_eq_some_iff.1 keys.first
  rw [superTypes] at found
  cases found with
  | @cons _ first _ bases hfirst hrest =>
    rw [hb] at hfirst
    cases hfirst
    have isKey := Model.field?_of_mem distinct (Model.mem_fields_of_mem_idFields hkey)
    cases ownField : own.field? key.name with
    | some f =>
      -- the model declares a field of that name itself, and no delegate stores that
      have hf : f ∈ own.fields := Model.mem_of_field? ownField
      have named : f.name = key.name := Model.name_of_field? ownField
      obtain ⟨g, hg, _, _, rfl⟩ := forall₂_exists_left resolves.fields hf
      exact ⟨_, List.mem_append_right _ hf, named, Or.inl (keys.unmarked declared hdeclared g hg)⟩
    | none =>
      -- nothing comes before the first super type, so the key is taken over with its usages
      have taken : (own.withInherited (Inherited.ofBases own (b :: bases))).field? key.name =
          some (key.inheritedVia b.name) := by
        rw [field?_withInherited, ownField, List.findSome?_cons, isKey]
        rfl
      have undeclared : own.attribute? "@@id" = none := by
        refine List.find?_eq_none.2 ?_
        intro a' ha'
        obtain ⟨a, ha, resolvesUsage⟩ := forall₂_exists_left resolves.attributes ha'
        rw [keys.undeclared declared hdeclared resolves.name_eq.symm a ha a' resolvesUsage]
        exact Bool.false_ne_true
      refine ⟨_, Model.mem_of_field? taken, rfl, Or.inr ?_⟩
      refine Model.isIdField_inheritedVia ?_ ?_ hkey b.name
      · intro name hname
        exact (mem_fieldNames_withInherited own _ name).2 (Or.inr ⟨b, List.mem_cons_self, hname⟩)
      · exact fun a isUsage => attribute?_withInherited undeclared isUsage

/-! ## §4. Physical links -/

namespace Job

variable {j : Job} {m : Model} {shortOf : String → String} {memory : Memory}

/-- The names of the fields that a block has from its model, before the generated ones. -/
def emittedNames (j : Job) (m : Model) (block : Target.ModelBlock) : List String :=
  (block.fields.take (m.fields.filter (j.emits m)).length).map (·.name)

theorem emittedNames_eq {block : Target.ModelBlock}
    (names : block.fieldNames = j.columnNames memory m) :
    j.emittedNames m block = (m.fields.filter (j.emits m)).map (·.name) := by
  unfold emittedNames
  rw [List.map_take]
  show block.fieldNames.take _ = _
  rw [names]
  exact List.take_left' (List.length_map _)

/-- The link `g` in the block of `c` is closed: the model that it refers to has a block, and its
    relation ties emitted fields of the one block to emitted fields of the other. -/
def LinkClosed (j : Job) (out : Target.Schema) (c : Model) (block : Target.ModelBlock)
    (g : Target.Field) : Prop :=
  ∃ b upper relation, j.schema.model? g.type.name = some b ∧
    out.findModel? g.type.name = some upper ∧ g.attribute? "@relation" = some relation ∧
    relation.ClosedOver (j.emittedNames c block) (j.emittedNames b upper)

/-- A link lists the identifier of the delegate, on both sides. -/
theorem relation_baseLink (j : Job) (memory : Memory) (m base : Model) :
    ∃ relation, (j.baseLink memory m base).attribute? "@relation" = some relation ∧
      relation.fieldList "fields" = base.idFields.map (·.name) ∧
      relation.fieldList "references" = base.idFields.map (·.name) :=
  ⟨_, rfl, Target.NamedAttribute.fieldList_of_arg? rfl,
    Target.NamedAttribute.fieldList_of_arg? rfl⟩

/-- **Which columns of a delegate a model below it repeats**: those that it declares itself, and
    those that identify its own rows. -/
theorem emits_iff_of_delegate (physical : j.mode = .physical) {base : Model}
    (hm : j.schema.model? m.name = some m) (hbase : j.schema.model? base.name = some base)
    (below : j.schema.Below m.name base.name) (delegate : base.isDelegate = true) {f : Field}
    (has : f.name ∈ base.fieldNames) :
    j.emits m f = true ↔ f.inheritedFrom = none ∨ m.isIdField f = true := by
  -- the delegate has a column of that name, whether or not it is the one that was inherited
  have stored : (j.schema.storingDelegate? m f).isSome = true ↔ f.inheritedFrom.isSome = true := by
    rw [Schema.storingDelegate?_isSome_iff hm]
    exact and_iff_left ⟨base, hbase, below, delegate, (base.field?_isSome_iff f.name).2 has⟩
  rw [← Bool.not_eq_false, emits_eq_false_iff physical, stored]
  cases f.inheritedFrom with
  | none => simp
  | some _ => simp

theorem mem_emitted_iff_repeats (physical : j.mode = .physical) {base : Model}
    (hm : j.schema.model? m.name = some m) (hbase : j.schema.model? base.name = some base)
    (below : j.schema.Below m.name base.name) (delegate : base.isDelegate = true) {name : String}
    (has : name ∈ base.fieldNames) :
    name ∈ (m.fields.filter (j.emits m)).map (·.name) ↔ m.Repeats name := by
  have emits : ∀ f : Field, f.name = name → (j.emits m f = true ↔ _) := fun f named =>
    emits_iff_of_delegate physical hm hbase below delegate (named.symm ▸ has)
  constructor
  · intro h
    obtain ⟨f, hf, named⟩ := List.mem_map.1 h
    obtain ⟨hf, emitted⟩ := List.mem_filter.1 hf
    exact ⟨f, hf, named, (emits f named).1 emitted⟩
  · intro ⟨f, hf, named, kept⟩
    exact List.mem_map.2 ⟨f, List.mem_filter.2 ⟨hf, (emits f named).2 kept⟩, named⟩

/-- The identifier of a model is among its emitted fields. -/
theorem mem_emitted_of_mem_idFields (physical : j.mode = .physical) {key : Field}
    (hkey : key ∈ m.idFields) : key.name ∈ (m.fields.filter (j.emits m)).map (·.name) := by
  have emitted : j.emits m key = true := by
    rw [← Bool.not_eq_false, emits_eq_false_iff physical, Model.isIdField_of_mem_idFields hkey]
    simp
  exact List.mem_map.2
    ⟨key, List.mem_filter.2 ⟨Model.mem_fields_of_mem_idFields hkey, emitted⟩, rfl⟩

section Build

variable {own : Schema} {memory' : Memory} {out : Target.Schema}
  (merges : Schema.Merges own j.schema) (physical : j.mode = .physical)
  (built : j.build memory = (.ok out, memory'))
include merges physical built

/-- **The link to a listed delegate is closed exactly when the delegate has a block and the model
    repeats its identifier.**  The other side is never at fault: a delegate that has a block emits
    its own identifier. -/
theorem linkClosed_baseLink_iff {c b : Model} (hc : c ∈ j.concreteModels)
    {block : Target.ModelBlock} (names : block.fieldNames = j.columnNames memory' c)
    (hb : j.schema.model? b.name = some b) (delegate : b.isDelegate = true)
    (listed : b.name ∈ c.superTypes) :
    j.LinkClosed out c block (j.baseLink memory' c b) ↔
      b.isAbstract = false ∧ ∀ key ∈ b.idFields, c.Repeats key.name := by
  have distinct := merges.modelNames_nodup
  have found := Schema.model?_of_mem distinct (mem_concreteModels.1 hc).1
  have below : j.schema.Below c.name b.name :=
    Relation.TransGen.single ((Schema.lists_iff found).2 listed)
  have repeated : ∀ key ∈ b.idFields,
      (key.name ∈ j.emittedNames c block ↔ c.Repeats key.name) := by
    intro key hkey
    rw [emittedNames_eq names]
    exact mem_emitted_iff_repeats physical found hb below delegate
      (Model.mem_fieldNames (Model.mem_fields_of_mem_idFields hkey))
  obtain ⟨relation, isRelation, fields, references⟩ :=
    relation_baseLink j memory' c b
  constructor
  · intro ⟨_, upper, relation', _, hupper, isRelation', closed⟩
    rw [isRelation] at isRelation'
    cases isRelation'
    refine ⟨(compileModel_of_findModel? built distinct (mem_of_findModel? hb) hupper).1, ?_⟩
    intro key hkey
    refine (repeated key hkey).1 (closed.fields key.name ?_)
    rw [fields]
    exact List.mem_map.2 ⟨key, hkey, rfl⟩
  · intro ⟨concrete, repeats⟩
    obtain ⟨upper, hupper, _, upperNames⟩ := exists_physical_block merges physical built
      (mem_concreteModels.2 ⟨mem_of_findModel? hb, concrete⟩)
    refine ⟨b, upper, relation, hb, hupper, isRelation, ?_, ?_⟩
    · rw [fields]
      intro name hname
      obtain ⟨key, hkey, rfl⟩ := List.mem_map.1 hname
      exact (repeated key hkey).2 (repeats key hkey)
    · rw [references, emittedNames_eq upperNames]
      intro name hname
      obtain ⟨key, hkey, rfl⟩ := List.mem_map.1 hname
      exact mem_emitted_of_mem_idFields physical hkey

end Build

/-- **Which physical links are closed.**  A generated required field refers to a delegate `b` that
    the model lists.  Its relation is closed exactly when `b` has a block and the model repeats the
    identifier of `b`.  For this it is enough that `b` has a block and is the super type that the
    model takes its identifier from. -/
theorem physical_link_closed_iff {d : Document} {j : Job} {memory memory' : Memory}
    {out : Target.Schema} (resolved : Schema.ofDocument d = .ok j.schema)
    (plain : d.flattened = false) (physical : j.mode = .physical)
    (built : j.build memory = (.ok out, memory')) {c : Model} (hc : c ∈ j.concreteModels)
    {block : Target.ModelBlock} (found : out.findModel? c.name = some block) {g : Target.Field}
    (hg : g ∈ j.generatedFields c block) (required : g.type.optional = false) :
    ∃ b, j.schema.model? g.type.name = some b ∧ b.isDelegate = true ∧ b.name ∈ c.superTypes ∧
      (j.LinkClosed out c block g ↔
        b.isAbstract = false ∧ ∀ key ∈ b.idFields, c.Repeats key.name) ∧
      (b.isAbstract = false → d.KeysFromFirst c b.name → j.LinkClosed out c block g) := by
  obtain ⟨own, _, merges⟩ := Schema.merges_of_ofDocument resolved plain
  obtain ⟨block', found', generated, names⟩ := exists_physical_block merges physical built hc
  rw [found] at found'
  cases found'
  rw [generated] at hg
  obtain ⟨b, hb, delegate, listed, rfl⟩ := exists_base_of_required hg required
  have closed_iff := linkClosed_baseLink_iff merges physical built hc names hb delegate listed
  refine ⟨b, hb, delegate, listed, closed_iff, ?_⟩
  intro concrete keys
  refine closed_iff.2 ⟨concrete, fun key hkey => ?_⟩
  exact repeats_of_keysFromFirst resolved plain (mem_concreteModels.1 hc).1 hb keys hkey

/-- The compound identifier of the given fields. -/
def compoundId (names : List String) : Attribute where
  name := "@@id"
  args := [{ name := none, value := .array (names.map .ref) }]

/-- Animals are identified by their herd and number; dogs are animals with a tag, and have the
    given attributes. -/
def herds (usages : List Attribute) : Document where
  declarations := [
    .model {
      name := "Animal"
      isDelegate := true
      fields := [
        { name := "herd", type := { scalar := some "Int" } },
        { name := "number", type := { scalar := some "Int" } }]
      attributes := [compoundId ["herd", "number"]] },
    .model {
      name := "Dog"
      superTypes := ["Animal"]
      fields := [{ name := "tag", type := { scalar := some "Int" } }]
      attributes := usages }]

/-- Dogs that are identified as animals are have herd and number in their own block, and the link
    to the animals is closed. -/
theorem dog_link_closed :
    ∃ (j : Job) (memory' : Memory) (out : Target.Schema),
      Schema.ofDocument (herds []) = .ok j.schema ∧ j.mode = .physical ∧
      j.build (Memory.ofLength Identifier.standardLength) = (.ok out, memory') ∧
      ∃ dog ∈ j.concreteModels, dog.name = "Dog" ∧ ∃ block, out.findModel? dog.name = some block ∧
        ∃ g ∈ j.generatedFields dog block, g.type = ⟨"Animal", false, false⟩ ∧
          (g.attribute? "@relation").map (·.fieldList "fields") = some ["herd", "number"] ∧
          j.LinkClosed out dog block g := by
  have builds : (herds []).buildsTo .physical (fun j out =>
      j.concreteModels.any fun dog => dog.name == "Dog" && dog.superTypes == ["Animal"] &&
        ((j.schema.model? "Animal").all fun animal => !animal.isAbstract) &&
        (out.findModel? dog.name).any fun block => (j.generatedFields dog block).any fun g =>
          g.type == ⟨"Animal", false, false⟩ &&
            (g.attribute? "@relation").map (·.fieldList "fields") == some ["herd", "number"]) =
      true := by
    decide +kernel
  obtain ⟨j, out, memory', resolved, physical, built, test⟩ := Document.exists_build builds
  simp only [List.any_eq_true, Bool.and_eq_true, beq_iff_eq, Option.any_eq_true, Option.all_eq_true,
    Bool.not_eq_true'] at test
  obtain ⟨dog, hdog, ⟨⟨isDog, superTypes⟩, concrete⟩, block, found, g, hg, type, keys⟩ := test
  obtain ⟨animal, hanimal, _, _, _, sufficient⟩ := physical_link_closed_iff resolved rfl physical
    built hdog found hg (by rw [type])
  rw [type] at hanimal
  have isAnimal : animal.name = "Animal" := name_of_findModel? hanimal
  have bare : ∀ u ∈ modelsOf (herds []).declarations, u.name = "Dog" →
      u.attributes.isEmpty = true := by
    decide
  have fromFirst : (herds []).KeysFromFirst dog animal.name := by
    refine ⟨by rw [superTypes, isAnimal]; rfl, by decide, by decide, ?_⟩
    intro u hu named a ha
    rw [List.isEmpty_iff.1 (bare u hu (named.trans isDog))] at ha
    cases ha
  exact ⟨j, memory', out, resolved, physical, built, dog, hdog, isDog, block, found, g, hg, type,
    keys, sufficient (concrete animal hanimal) fromFirst⟩

/-- **A link can refer to fields that are not there**: dogs that are identified by their tag have
    no herd and no number in their block, but the link to the animals is tied to them. -/
theorem dog_link_dangles :
    ∃ (j : Job) (memory' : Memory) (out : Target.Schema),
      Schema.ofDocument (herds [compoundId ["tag"]]) = .ok j.schema ∧
      (herds [compoundId ["tag"]]).flattened = false ∧ j.mode = .physical ∧
      j.build (Memory.ofLength Identifier.standardLength) = (.ok out, memory') ∧
      ∃ dog ∈ j.concreteModels, ∃ block, out.findModel? dog.name = some block ∧
        block.fieldNames = ["tag", "delegate_aux_animal"] ∧
        ∃ g ∈ j.generatedFields dog block, g.type.optional = false ∧
          (g.attribute? "@relation").map (·.fieldList "fields") = some ["herd", "number"] ∧
          ¬ j.LinkClosed out dog block g := by
  have builds : (herds [compoundId ["tag"]]).buildsTo .physical (fun j out =>
      j.concreteModels.any fun dog => (out.findModel? dog.name).any fun block =>
        block.fieldNames == ["tag", "delegate_aux_animal"] &&
        !(j.emittedNames dog block).contains "herd" &&
        (j.generatedFields dog block).any fun g => !g.type.optional &&
          (g.attribute? "@relation").map (·.fieldList "fields") == some ["herd", "number"]) =
      true := by
    decide +kernel
  obtain ⟨j, out, memory', resolved, physical, built, test⟩ := Document.exists_build builds
  simp only [List.any_eq_true, Bool.and_eq_true, beq_iff_eq, Option.any_eq_true,
    Bool.not_eq_true', List.contains_eq_mem, decide_eq_false_iff_not] at test
  obtain ⟨dog, hdog, block, found, ⟨names, missing⟩, g, hg, required, keys⟩ := test
  refine ⟨j, memory', out, resolved, rfl, physical, built, dog, hdog, block, found, names, g, hg,
    required, keys, ?_⟩
  intro ⟨_, _, relation, _, _, isRelation, closed⟩
  rw [isRelation] at keys
  have listed : relation.fieldList "fields" = ["herd", "number"] := Option.some.inj keys
  refine missing (closed.fields "herd" ?_)
  rw [listed]
  exact List.mem_cons_self

end Job

/-! ## §5. Ties that stay in a block -/

namespace Target

theorem mem_updateFirst {α : Type} {p : α → Bool} {edit : α → α} {xs : List α} {x : α}
    (hx : x ∈ xs) : x ∈ updateFirst p edit xs ∨ edit x ∈ updateFirst p edit xs := by
  induction xs with
  | nil => cases hx
  | cons y ys ih =>
    unfold updateFirst
    split
    next =>
      rcases List.mem_cons.1 hx with rfl | later
      · exact Or.inr List.mem_cons_self
      · exact Or.inl (List.mem_cons_of_mem _ later)
    next =>
      rcases List.mem_cons.1 hx with rfl | later
      · exact Or.inl List.mem_cons_self
      · exact (ih later).imp (List.mem_cons_of_mem _) (List.mem_cons_of_mem _)

/-- Where an element satisfies the condition, the first that does so is changed. -/
theorem exists_mem_updateFirst {α : Type} {p : α → Bool} (edit : α → α) {xs : List α} {x : α}
    (hx : x ∈ xs) (holds : p x = true) :
    ∃ y, p y = true ∧ edit y ∈ updateFirst p edit xs := by
  induction xs with
  | nil => cases hx
  | cons y ys ih =>
    unfold updateFirst
    split
    next here => exact ⟨y, here, List.mem_cons_self⟩
    next not_here =>
      rcases List.mem_cons.1 hx with rfl | later
      · exact absurd holds not_here
      · obtain ⟨z, hz, member⟩ := ih later
        exact ⟨z, hz, List.mem_cons_of_mem _ member⟩

/-- A field carries a relation that ties the fields `keys` to the fields `references`. -/
def Field.CarriesTie (g : Field) (keys references : List String) : Prop :=
  ∃ a : NamedAttribute, .named a ∈ g.attributes ∧ a.name = "@relation" ∧
    a.fieldList "fields" = keys ∧ a.fieldList "references" = references

/-- A block has a field of that name that carries such a relation. -/
def ModelBlock.HoldsTie (b : ModelBlock) (name : String) (keys references : List String) : Prop :=
  ∃ g ∈ b.fields, g.name = name ∧ g.CarriesTie keys references

variable {keys references : List String}

theorem Field.CarriesTie.addAttribute {g : Field} (h : g.CarriesTie keys references)
    (a : Attribute) : (g.addAttribute a).CarriesTie keys references := by
  obtain ⟨relation, member, tie⟩ := h
  exact ⟨relation, List.mem_append_left _ member, tie⟩

/-- The first field of a name gets the relation that is put there. -/
theorem ModelBlock.holdsTie_updateField_new {b : ModelBlock} {name : String}
    (has : name ∈ b.fieldNames) (relation : NamedAttribute)
    (isRelation : relation.name = "@relation") :
    (b.updateField name (·.addAttribute (.named relation))).HoldsTie name
      (relation.fieldList "fields") (relation.fieldList "references") := by
  obtain ⟨f, hf, named⟩ := List.mem_map.1 has
  obtain ⟨g, isNamed, member⟩ := exists_mem_updateFirst (p := fun g : Field => g.name == name)
    (·.addAttribute (.named relation)) hf (beq_iff_eq.2 named)
  exact ⟨_, member, beq_iff_eq.1 isNamed, relation,
    List.mem_append_right _ (List.mem_singleton.2 rfl), isRelation, rfl, rfl⟩

theorem ModelBlock.HoldsTie.extend {b : ModelBlock} {name : String}
    (h : b.HoldsTie name keys references) (fs : List Field) (as : List Attribute) :
    (b.extend fs as).HoldsTie name keys references := by
  obtain ⟨g, hg, tie⟩ := h
  exact ⟨g, List.mem_append_left _ hg, tie⟩

theorem ModelBlock.HoldsTie.updateField {b : ModelBlock} {name other : String}
    {edit : Field → Field} (h : b.HoldsTie name keys references)
    (same : ∀ g, (edit g).name = g.name)
    (keeps : ∀ g : Field, g.CarriesTie keys references → (edit g).CarriesTie keys references) :
    (b.updateField other edit).HoldsTie name keys references := by
  obtain ⟨g, hg, named, tie⟩ := h
  rcases mem_updateFirst hg with kept | edited
  · exact ⟨g, kept, named, tie⟩
  · exact ⟨edit g, edited, (same g).trans named, keeps g tie⟩

end Target

namespace Job

variable {j : Job} {m : Model} {shortOf : String → String} {memory : Memory}

/-- Naming a relation puts the name before its arguments, so the tie stays. -/
theorem carriesTie_nameRelation {keys references : List String} (f : Field) (name : String)
    {g : Target.Field} (h : g.CarriesTie keys references) :
    (nameRelation f name g).CarriesTie keys references := by
  unfold nameRelation
  split
  next =>
    split
    next => exact h
    next =>
      obtain ⟨a, member, isRelation, fields, refs⟩ := h
      rcases Target.mem_updateFirst member with kept | edited
      · exact ⟨a, kept, isRelation, fields, refs⟩
      · exact ⟨_, edited, isRelation, fields, refs⟩
  next => exact h.addAttribute _

/-! ## §6. Widened relations that own keys -/

/-- The relation attribute that widening a field for a descendant builds, where the relation
    `relation` of the field owns keys: the copies of these keys are tied to what the keys were. -/
def ownedRelation (j : Job) (identifier : String → String) (m : Model) (f : Field)
    (relation : Attribute) (concrete : Model) : Target.NamedAttribute where
  name := "@relation"
  args :=
    [.positional (.string (((relation.arg? "name").bind (·.asString?)).getD
      (identifier (widenedName m concrete f)))),
     .named "fields" (.fieldRefs ((j.schema.keyPairs m f).map fun pair =>
       identifier (widenedName m concrete pair.1))),
     .named "references" (.fieldRefs ((j.schema.keyPairs m f).map fun pair => pair.2.name))] ++
    if j.schema.namesConstraints then
      [.named "map" (.string (identifier (widenedName m concrete f) ++ "_fk"))]
    else []

/-- A block holds the relation that widening a field for a descendant builds. -/
def HoldsWidened (j : Job) (identifier : String → String) (m : Model) (f : Field) (concrete : Model)
    (b : Target.ModelBlock) : Prop :=
  b.HoldsTie (identifier (widenedName m concrete f))
    ((j.schema.keyPairs m f).map fun pair => identifier (widenedName m concrete pair.1))
    ((j.schema.keyPairs m f).map fun pair => pair.2.name)

section Owned

variable {identifier : String → String} {f : Field} {relation : Attribute} {concrete : Model}

theorem fields_ownedRelation :
    (j.ownedRelation identifier m f relation concrete).fieldList "fields" =
      (j.schema.keyPairs m f).map fun pair => identifier (widenedName m concrete pair.1) :=
  Target.NamedAttribute.fieldList_of_arg? rfl

theorem references_ownedRelation :
    (j.ownedRelation identifier m f relation concrete).fieldList "references" =
      (j.schema.keyPairs m f).map fun pair => pair.2.name :=
  Target.NamedAttribute.fieldList_of_arg? rfl

theorem names_copyKeys {keys : List Field} {b b' : Target.ModelBlock} {names : List String}
    (h : (j.copyKeys m concrete keys b).answer shortOf = .ok (names, b')) :
    names = keys.map fun key => ofShort (shortOf (widenedName m concrete key)) := by
  induction keys generalizing b names with
  | nil =>
    cases h
    rfl
  | cons key keys ih =>
    unfold copyKeys at h
    simp only [Compile.answer_bind, Compile.answer_pure] at h
    obtain ⟨⟨name, block⟩, first, h⟩ := bind_ok_iff.1 h
    obtain ⟨⟨names, block'⟩, rest, h⟩ := bind_ok_iff.1 h
    cases h
    rw [(copyKey_eq_ok first).1, ih rest, List.map_cons]

variable (carried : f.attribute? "@relation" = some relation)
  (owning : (relation.arg? "fields").isSome = true)
include carried owning

theorem copiedKeys_of_owning : j.copiedKeys m f = (j.schema.keyPairs m f).map (·.1) := by
  unfold copiedKeys
  rw [carried]
  exact if_pos owning

theorem widenedRelation_of_owning {b b' : Target.ModelBlock} {built : Target.Attribute}
    (h : (j.widenedRelation m f concrete (ofShort (shortOf (widenedName m concrete f))) b).answer
      shortOf = .ok (built, b')) :
    built = .named
      (j.ownedRelation (fun name => ofShort (shortOf name)) m f relation concrete) := by
  have not_keyless : ¬ (relation.arg? "fields").isNone = true := by
    rw [Option.isNone_iff_eq_none, ← ne_eq, ← Option.isSome_iff_ne_none]
    exact owning
  unfold widenedRelation at h
  rw [carried] at h
  dsimp only at h
  rw [if_neg not_keyless] at h
  simp only [Compile.answer_bind, Compile.answer_pure] at h
  obtain ⟨⟨keys, block⟩, copied, h⟩ := bind_ok_iff.1 h
  cases h
  rw [names_copyKeys copied, List.map_map]
  rfl

/-- Widening puts the relation on a field of the made-up name. -/
theorem holdsWidened_widenFor {b b' : Target.ModelBlock}
    (h : (j.widenFor m f b concrete).answer shortOf = .ok b') :
    j.HoldsWidened (fun name => ofShort (shortOf name)) m f concrete b' := by
  unfold widenFor at h
  simp only [Compile.answer_bind, Compile.answer_identifier, Compile.answer_pure] at h
  obtain ⟨name, same, h⟩ := bind_ok_iff.1 h
  cases same
  obtain ⟨⟨built, block⟩, widened, h⟩ := bind_ok_iff.1 h
  cases h
  rw [widenedRelation_of_owning carried owning widened]
  obtain ⟨copies, constraints, rfl, _⟩ := widenedRelation_eq_ok widened
  -- the relation goes to the first field of the name, and there is one: it was just added
  have has : ofShort (shortOf (widenedName m concrete f)) ∈ ((b.addField
      { name := ofShort (shortOf (widenedName m concrete f)),
        type := ⟨concrete.name, f.type.array, f.type.optional⟩ }).extend
          copies constraints).fieldNames := by
    simp [Target.ModelBlock.fieldNames, Target.ModelBlock.extend, Target.ModelBlock.addField]
  have tie := Target.ModelBlock.holdsTie_updateField_new has
    (j.ownedRelation (fun name => ofShort (shortOf name)) m f relation concrete) rfl
  rw [fields_ownedRelation, references_ownedRelation] at tie
  exact tie

/-- **The relation built for a descendant stays in the block**: neither widening other fields nor
    naming relations takes it away or changes what it ties. -/
theorem holdsWidened_compileModel {block : Target.ModelBlock} (logical : j.mode = .logical)
    (h : (j.compileModel m).answer shortOf = .ok block) (hf : f ∈ m.fields)
    (hc : concrete ∈ j.widenedTo m f) :
    j.HoldsWidened (fun name => ofShort (shortOf name)) m f concrete block := by
  obtain ⟨start, _, rest⟩ := compileModel_eq_ok h
  obtain ⟨widened, ok, rfl⟩ := completeBlock_logical logical rest
  refine nameRelations_inv ?_ ?_
  · intro b f' name tie
    exact Target.ModelBlock.HoldsTie.updateField tie (name_nameRelation f' name)
      fun _ => carriesTie_nameRelation f' name
  · have step : (f, concrete) ∈ j.widenings m :=
      List.mem_flatMap.2 ⟨f, hf, List.mem_map.2 ⟨concrete, hc, rfl⟩⟩
    rw [answer_widen] at ok
    refine foldlM_ok_of_mem ok step (fun _ _ first => holdsWidened_widenFor carried owning first) ?_
    intro other _ b b' tie next
    obtain ⟨_, _, _, built, _, rfl, _⟩ := widenFor_eq_ok next
    exact (Target.ModelBlock.HoldsTie.extend tie _ _).updateField (fun _ => rfl)
      fun _ carries => carries.addAttribute built

end Owned

theorem mem_target_of_keyPairs {s : Schema} {f : Field} {target : Model} {pair : Field × Field}
    (points : s.relationTarget? f = some target) (h : pair ∈ s.keyPairs m f) :
    pair.2 ∈ target.fields := by
  unfold Schema.keyPairs at h
  rw [points] at h
  split at h
  next same =>
    cases same
    exact mem_fields_of_referencedFields (List.of_mem_zip h).2
  next => cases h

/-- **Widened relations that own keys are closed.**  Where a field of a model has a relation that
    owns keys and is widened for a descendant, there is one relation attribute that widening
    builds, whatever the block is at that point.  It ties the copies of the keys, pair by pair, to
    the fields that the keys refer to; the block of the model has a field of the made-up name that
    carries it, and has all the copies, and the block of the descendant has all the fields that
    are referred to. -/
theorem widened_keys_closed {d : Document} {j : Job} {memory memory' : Memory}
    {out : Target.Schema} (resolved : Schema.ofDocument d = .ok j.schema)
    (plain : d.flattened = false) (logical : j.mode = .logical)
    (built : j.build memory = (.ok out, memory')) {m : Model} (hm : m ∈ j.concreteModels)
    {f : Field} (hf : f ∈ m.fields) {relation : Attribute}
    (carried : f.attribute? "@relation" = some relation)
    (owning : (relation.arg? "fields").isSome = true) {concrete : Model}
    (hc : concrete ∈ j.widenedTo m f) :
    ∃ block upper a, out.findModel? m.name = some block ∧
      out.findModel? concrete.name = some upper ∧
      (∀ b made b', (j.widenedRelation m f concrete
          (memory'.identifier (widenedName m concrete f)) b).answer memory'.shorten =
            .ok (made, b') → made = .named a) ∧
      block.HoldsTie (memory'.identifier (widenedName m concrete f)) (a.fieldList "fields")
        (a.fieldList "references") ∧
      a.fieldList "fields" = (j.schema.keyPairs m f).map (fun pair =>
        memory'.identifier (widenedName m concrete pair.1)) ∧
      a.fieldList "references" = (j.schema.keyPairs m f).map (fun pair => pair.2.name) ∧
      (a.fieldList "fields").length = (a.fieldList "references").length ∧
      a.ClosedOver block.fieldNames upper.fieldNames := by
  obtain ⟨own, _, merges⟩ := Schema.merges_of_ofDocument resolved plain
  have distinct := merges.modelNames_nodup
  obtain ⟨known, isConcrete⟩ := mem_concreteModels.1 hm
  obtain ⟨block, found, ok⟩ := exists_block built distinct known isConcrete
  obtain ⟨_, target, points, _, knownBelow, concreteBelow, below⟩ :=
    (mem_widenedTo distinct f concrete).1 hc
  obtain ⟨upper, foundBelow, okBelow⟩ := exists_block built distinct knownBelow concreteBelow
  have identifiers : memory'.identifier =
      fun name => ofShort (memory'.shorten name) := funext memory'.identifier_eq
  refine ⟨block, upper, j.ownedRelation memory'.identifier m f relation concrete, found,
    foundBelow, ?_, ?_, fields_ownedRelation, references_ownedRelation, ?_, ?_, ?_⟩
  · rw [identifiers]
    intro b made b' widened
    exact widenedRelation_of_owning carried owning widened
  · rw [fields_ownedRelation, references_ownedRelation, identifiers]
    exact holdsWidened_compileModel carried owning logical ok hf hc
  · rw [fields_ownedRelation, references_ownedRelation, List.length_map, List.length_map]
  · rw [fields_ownedRelation, fieldNames_logical logical ok]
    intro name hname
    obtain ⟨pair, hpair, rfl⟩ := List.mem_map.1 hname
    refine List.mem_append_right _ (List.mem_map.2 ⟨_, List.mem_flatMap.2 ⟨f, hf, ?_⟩, rfl⟩)
    refine mem_namesFor.2 ⟨concrete, hc, pair.1, List.mem_cons_of_mem _ ?_, rfl⟩
    rw [copiedKeys_of_owning carried owning]
    exact List.mem_map.2 ⟨pair, hpair, rfl⟩
  · rw [references_ownedRelation, fieldNames_logical logical okBelow]
    intro name hname
    obtain ⟨pair, hpair, rfl⟩ := List.mem_map.1 hname
    refine List.mem_append_left _ ?_
    -- field names come down from the delegate that the relation points to
    obtain ⟨reference, _, isTarget⟩ := Option.bind_eq_some_iff.1 points
    rw [← name_of_findModel? isTarget] at isTarget
    exact merges.fieldNames_of_path below.to_reflTransGen
      (Schema.model?_of_mem distinct knownBelow) isTarget
      (Model.mem_fieldNames (mem_target_of_keyPairs points hpair))

/-- In the playlists the first asset is widened for the videos with both its keys. -/
theorem playlist_intro_closed :
    ∃ (j : Job) (memory' : Memory) (out : Target.Schema),
      Schema.ofDocument (playlists ["outroId"] ["id"]) = .ok j.schema ∧ j.mode = .logical ∧
      j.build (Memory.ofLength Identifier.standardLength) = (.ok out, memory') ∧
      ∃ playlist ∈ j.concreteModels, ∃ f ∈ playlist.fields, ∃ video ∈ j.widenedTo playlist f,
        playlist.name = "Playlist" ∧ f.name = "intro" ∧ video.name = "Video" ∧
        ∃ block upper, ∃ a : Target.NamedAttribute, out.findModel? playlist.name = some block ∧
          out.findModel? video.name = some upper ∧
          a.fieldList "fields" = [memory'.identifier "Playlist_tenant_Video",
            memory'.identifier "Playlist_introId_Video"] ∧
          a.fieldList "references" = ["tenant", "id"] ∧
          block.HoldsTie (memory'.identifier (widenedName playlist video f))
            (a.fieldList "fields") (a.fieldList "references") ∧
          a.ClosedOver block.fieldNames upper.fieldNames := by
  have builds : (playlists ["outroId"] ["id"]).buildsTo .logical (fun j _ =>
      j.concreteModels.any fun playlist => playlist.name == "Playlist" &&
        playlist.fields.any fun f => f.name == "intro" &&
          (f.attribute? "@relation").any (fun relation => (relation.arg? "fields").isSome) &&
          (j.schema.keyPairs playlist f).map (fun pair => (pair.1.name, pair.2.name)) ==
            [("tenant", "tenant"), ("introId", "id")] &&
          (j.widenedTo playlist f).any fun video => video.name == "Video") = true := by
    decide +kernel
  obtain ⟨j, out, memory', resolved, logical, built, test⟩ := Document.exists_build builds
  simp only [List.any_eq_true, Bool.and_eq_true, beq_iff_eq, Option.any_eq_true] at test
  obtain ⟨playlist, hplaylist, isPlaylist, f, hf, ⟨⟨isIntro, relation, carried, owning⟩, pairs⟩,
    video, hvideo, isVideo⟩ := test
  obtain ⟨block, upper, a, found, foundBelow, _, tie, fields, references, _, closed⟩ :=
    widened_keys_closed resolved rfl logical built hplaylist hf carried owning hvideo
  have copies := congrArg (List.map fun names : String × String =>
    memory'.identifier ("Playlist" ++ "_" ++ names.1 ++ "_" ++ "Video")) pairs
  have originals := congrArg (List.map Prod.snd) pairs
  rw [List.map_map] at copies originals
  refine ⟨j, memory', out, resolved, logical, built, playlist, hplaylist, f, hf, video, hvideo,
    isPlaylist, isIntro, isVideo, block, upper, a, found, foundBelow, ?_, ?_, tie, closed⟩
  · rw [fields]
    unfold widenedName
    rw [isPlaylist, isVideo]
    exact copies
  · rw [references]
    exact originals

end Job

end DelegateSchema
