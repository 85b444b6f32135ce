/-
  DelegateSchema.Proofs.Columns — which columns a physical schema still reaches.

  A column that a delegate above a model stores is left out of the block of the model.  The left
  out column counts as inherited from *any* delegate above, at whatever distance, but links lead
  only to the delegates that a model *lists*.  So a column is still reached exactly when a path
  of listed, concrete delegates leads to a block that has it, and one super type on the way that
  is abstract or no delegate can lose it.

  Main results:
    * `linkStep_iff` — a link of the output is a listed, concrete delegate of the schema,
    * `exists_holder` — where all super types with the column are concrete delegates, the way up
      ends at a model that keeps it,
    * `reaches_dropped_column_iff` — which columns are reached,
    * `puppy_loses_column` — one that is not.
-/
import DelegateSchema.Proofs.Links

namespace DelegateSchema

open Identifier (Memory)
open Relation

/-! ## §1. Steps -/

/-- The model `name` lists `base`, which is a delegate and has a block of its own. -/
def Schema.ListsDelegate (s : Schema) (name base : String) : Prop :=
  s.Lists name base ∧ ∃ b, s.model? base = some b ∧ b.isDelegate = true ∧ b.isAbstract = false

namespace Job

/-- The fields of a block behind the emitted ones of its model: those that were generated. -/
def generatedFields (j : Job) (m : Model) (block : Target.ModelBlock) : List Target.Field :=
  block.fields.drop (m.fields.filter (j.emits m)).length

/-- In the output the block of `lower` has a generated required field that refers to the block
    of `upper`. -/
def LinkStep (j : Job) (out : Target.Schema) (lower upper : String) : Prop :=
  ∃ m block, j.schema.model? lower = some m ∧ out.findModel? lower = some block ∧
    (∃ g ∈ j.generatedFields m block, g.type = ⟨upper, false, false⟩) ∧
    (out.findModel? upper).isSome = true

/-- Links lead from the block of a model to a block with a field of the given name. -/
def Reaches (j : Job) (out : Target.Schema) (modelName column : String) : Prop :=
  ∃ last block, TransGen (j.LinkStep out) modelName last ∧ out.findModel? last = some block ∧
    column ∈ block.fieldNames

/-- The names of the fields of a block: the emitted ones, and those of the links. -/
def columnNames (j : Job) (memory : Memory) (m : Model) : List String :=
  (m.fields.filter (j.emits m)).map (·.name) ++
    (j.subtypeLinks memory m ++ j.baseLinks memory m).map (·.name)

variable {j : Job} {memory memory' : Memory} {out : Target.Schema}

theorem exists_concrete_of_listsDelegate {lower upper : String}
    (h : j.schema.ListsDelegate lower upper) : ∃ b ∈ j.concreteModels, b.name = upper := by
  obtain ⟨_, b, found, _, concrete⟩ := h
  exact ⟨b, mem_concreteModels.2 ⟨mem_of_findModel? found, concrete⟩, name_of_findModel? found⟩

/-- A link that is not optional is the link to a delegate that the model lists. -/
theorem exists_base_of_required {m : Model} {g : Target.Field}
    (hg : g ∈ j.subtypeLinks memory m ++ j.baseLinks memory m)
    (required : g.type.optional = false) :
    ∃ b, j.schema.model? b.name = some b ∧ b.isDelegate = true ∧ b.name ∈ m.superTypes ∧
      g = j.baseLink memory m b := by
  rcases List.mem_append.1 hg with down | up
  · -- a link to a subtype is optional
    unfold subtypeLinks at down
    split at down
    next =>
      obtain ⟨c, _, rfl⟩ := List.mem_map.1 down
      cases required
    next => cases down
  · obtain ⟨b, hb, rfl⟩ := List.mem_map.1 up
    obtain ⟨listed, delegate⟩ := List.mem_filter.1 hb
    obtain ⟨base, hbase, found⟩ := List.mem_filterMap.1 listed
    rw [← name_of_findModel? found] at hbase found
    exact ⟨b, found, delegate, hbase, rfl⟩

/-- The required links of a model are those to the delegates that it lists. -/
theorem exists_required_link {m : Model} {upper : String} :
    (∃ g ∈ j.subtypeLinks memory m ++ j.baseLinks memory m, g.type = ⟨upper, false, false⟩) ↔
      upper ∈ m.superTypes ∧ ∃ b, j.schema.model? upper = some b ∧ b.isDelegate = true := by
  constructor
  · intro ⟨g, hg, required⟩
    obtain ⟨b, found, delegate, listed, rfl⟩ := exists_base_of_required hg (by rw [required])
    have same : b.name = upper := congrArg (·.name) required
    rw [same] at found listed
    exact ⟨listed, b, found, delegate⟩
  · intro ⟨listed, b, found, delegate⟩
    have same : b.name = upper := name_of_findModel? found
    refine ⟨j.baseLink memory m b, List.mem_append_right _ (List.mem_map.2 ⟨b, ?_, rfl⟩), ?_⟩
    · exact List.mem_filter.2 ⟨List.mem_filterMap.2 ⟨upper, listed, found⟩, delegate⟩
    · rw [← same]
      rfl

/-! ## §2. Links of the output and of the schema -/

section Build

variable {own : Schema} (merges : Schema.Merges own j.schema) (physical : j.mode = .physical)
  (built : j.build memory = (.ok out, memory'))
include merges physical built

/-- The block of a concrete model: its generated fields are its links, and its field names are
    its column names. -/
theorem exists_physical_block {m : Model} (hm : m ∈ j.concreteModels) :
    ∃ block, out.findModel? m.name = some block ∧
      j.generatedFields m block = j.subtypeLinks memory' m ++ j.baseLinks memory' m ∧
      block.fieldNames = j.columnNames memory' m := by
  obtain ⟨known, concrete⟩ := mem_concreteModels.1 hm
  obtain ⟨block, found, ok⟩ := exists_block built merges.modelNames_nodup known concrete
  obtain ⟨source, emitted, fields⟩ :=
    fields_physical physical (fun c hc => merges.not_listed_self hc) ok
  have all := mapM_ok_iff.1 emitted
  refine ⟨block, found, ?_, ?_⟩
  · unfold generatedFields
    rw [fields, all.length_eq, List.append_assoc, List.drop_left]
  · unfold Target.ModelBlock.fieldNames columnNames
    rw [fields, List.append_assoc, List.map_append, names_of_forall₂ all]

/-- **A link of the output is a listed, concrete delegate of the schema.** -/
theorem linkStep_iff {m : Model} {upper : String} (hm : m ∈ j.concreteModels) :
    j.LinkStep out m.name upper ↔ j.schema.ListsDelegate m.name upper := by
  have distinct := merges.modelNames_nodup
  have found := Schema.model?_of_mem distinct (mem_concreteModels.1 hm).1
  obtain ⟨block, hblock, generated, _⟩ := exists_physical_block merges physical built hm
  constructor
  · intro ⟨m', block', found', hblock', link, upper_block⟩
    rw [found] at found'
    cases found'
    rw [hblock] at hblock'
    cases hblock'
    rw [generated, exists_required_link] at link
    obtain ⟨listed, b, hb, delegate⟩ := link
    obtain ⟨upperBlock, hupper⟩ := Option.isSome_iff_exists.1 upper_block
    rw [← name_of_findModel? hb] at hupper
    have concrete := (compileModel_of_findModel? built distinct (mem_of_findModel? hb) hupper).1
    exact ⟨(Schema.lists_iff found).2 listed, b, hb, delegate, concrete⟩
  · intro ⟨listed, b, hb, delegate, concrete⟩
    have known := mem_of_findModel? hb
    have same : b.name = upper := name_of_findModel? hb
    obtain ⟨upperBlock, hupper, _⟩ := exists_block built distinct known concrete
    refine ⟨m, block, found, hblock, ?_, ?_⟩
    · rw [generated, exists_required_link]
      exact ⟨(Schema.lists_iff found).1 listed, b, hb, delegate⟩
    · rw [← same, hupper]
      rfl

/-- Every step starts and ends at a concrete model, so whole paths correspond too. -/
theorem transGen_linkStep_iff {m : Model} {upper : String} (hm : m ∈ j.concreteModels) :
    TransGen (j.LinkStep out) m.name upper ↔ TransGen j.schema.ListsDelegate m.name upper := by
  have step : ∀ {c : Model} {upper : String}, c ∈ j.concreteModels →
      (j.LinkStep out c.name upper ↔ j.schema.ListsDelegate c.name upper) :=
    fun hc => linkStep_iff merges physical built hc
  constructor
  · intro path
    induction path with
    | single link => exact TransGen.single ((step hm).1 link)
    | tail _ link ih =>
      have ⟨_, block, _, hblock, _⟩ := link
      obtain ⟨c, known, concrete, rfl, _⟩ := exists_model built hblock
      exact ih.tail ((step (mem_concreteModels.2 ⟨known, concrete⟩)).1 link)
  · intro path
    induction path with
    | single listed => exact TransGen.single ((step hm).2 listed)
    | tail before listed ih =>
      obtain ⟨_, _, last⟩ := TransGen.tail'_iff.1 before
      obtain ⟨c, hc, rfl⟩ := exists_concrete_of_listsDelegate last
      exact ih.tail ((step hc).2 listed)

/-- **A column is reached exactly when listed, concrete delegates lead to a model with it.** -/
theorem reaches_iff_exists_holder {m : Model} {column : String} (hm : m ∈ j.concreteModels) :
    j.Reaches out m.name column ↔ ∃ holder ∈ j.concreteModels,
      TransGen j.schema.ListsDelegate m.name holder.name ∧
        column ∈ j.columnNames memory' holder := by
  constructor
  · intro ⟨last, block, path, hblock, hcolumn⟩
    obtain ⟨holder, known, concrete, rfl, _⟩ := exists_model built hblock
    have hholder := mem_concreteModels.2 ⟨known, concrete⟩
    obtain ⟨block', hblock', _, names⟩ := exists_physical_block merges physical built hholder
    rw [hblock] at hblock'
    cases hblock'
    exact ⟨holder, hholder, (transGen_linkStep_iff merges physical built hm).1 path,
      names ▸ hcolumn⟩
  · intro ⟨holder, hholder, path, hcolumn⟩
    obtain ⟨block, hblock, _, names⟩ := exists_physical_block merges physical built hholder
    exact ⟨holder.name, block, (transGen_linkStep_iff merges physical built hm).2 path, hblock,
      names ▸ hcolumn⟩

end Build

/-! ## §3. The way up to a column -/

/-- A field is left out when a delegate stores it and it does not identify rows. -/
theorem emits_eq_false_iff (physical : j.mode = .physical) (m : Model) (f : Field) :
    j.emits m f = false ↔
      (j.schema.storingDelegate? m f).isSome = true ∧ m.isIdField f = false := by
  unfold emits
  rw [physical]
  cases j.schema.storingDelegate? m f with
  | none => simp
  | some _ => simp

/-- **Where all super types with the column are concrete delegates, a dropped column is kept
    further up.**  The induction goes up the super types, which run in no circle: the delegate
    that stores the column is above one of the listed super types, so this one has the column too,
    and it either keeps it or drops it again. -/
theorem exists_holder {own : Schema} (merges : Schema.Merges own j.schema)
    (physical : j.mode = .physical) {column : String} {start : String}
    (unbroken : ∀ m ∈ j.schema.models, ReflTransGen j.schema.ListsDelegate start m.name →
      ∀ base ∈ m.superTypes, ∀ b, j.schema.model? base = some b → column ∈ b.fieldNames →
        b.isDelegate = true ∧ b.isAbstract = false)
    {name : String} (above : ReflTransGen j.schema.ListsDelegate start name) {m : Model}
    (hm : j.schema.model? name = some m) {f : Field} (hf : f ∈ m.fields) (named : f.name = column)
    (dropped : j.emits m f = false) :
    ∃ holder ∈ j.concreteModels, TransGen j.schema.ListsDelegate name holder.name ∧
      ∃ g ∈ holder.fields, j.emits holder g = true ∧ g.name = column := by
  induction name using merges.grounded.induction generalizing m f with
  | h name ih =>
    have same : m.name = name := name_of_findModel? hm
    have known := mem_of_findModel? hm
    have stored := ((emits_eq_false_iff physical m f).1 dropped).1
    rw [Schema.storingDelegate?_isSome_iff (same.symm ▸ hm)] at stored
    obtain ⟨_, top, htop, below, _, has⟩ := stored
    -- the first step on the way to the delegate that stores the column
    rw [same, Schema.below_iff hm] at below
    obtain ⟨base, listed, path⟩ := below
    obtain ⟨b, hb, _⟩ := merges.fieldNames_of_lists known listed
    -- field names come down from the top, so the model in between has the column as well
    have hcolumn : column ∈ b.fieldNames := by
      rw [Model.field?_isSome_iff, named] at has
      exact merges.fieldNames_of_path path hb htop has
    obtain ⟨delegate, concrete⟩ := unbroken m known (same ▸ above) base listed b hb hcolumn
    have lists : j.schema.Lists name base := (Schema.lists_iff hm).2 listed
    have step : j.schema.ListsDelegate name base := ⟨lists, b, hb, delegate, concrete⟩
    by_cases kept : ∃ g ∈ b.fields, j.emits b g = true ∧ g.name = column
    · refine ⟨b, mem_concreteModels.2 ⟨mem_of_findModel? hb, concrete⟩, ?_, kept⟩
      rw [name_of_findModel? hb]
      exact TransGen.single step
    · obtain ⟨g, hg, hname⟩ := List.mem_map.1 hcolumn
      have dropped_again : j.emits b g = false := by
        cases emitted : j.emits b g with
        | false => rfl
        | true => exact absurd ⟨g, hg, emitted, hname⟩ kept
      obtain ⟨holder, hholder, further, keeps⟩ :=
        ih base lists (above.tail step) hb hg hname dropped_again
      exact ⟨holder, hholder, TransGen.head step further, keeps⟩

/-! ## §4. Dropped columns -/

/-- **Which dropped columns a physical schema still reaches**: exactly those that a path of
    listed, concrete delegates leads to.  For this it is enough that, all the way up, every super
    type that has the column is a concrete delegate. -/
theorem reaches_dropped_column_iff {d : Document} {j : Job} {memory memory' : Memory}
    {out : Target.Schema} (resolved : Schema.ofDocument d = .ok j.schema)
    (plain : d.flattened = false) (physical : j.mode = .physical)
    (built : j.build memory = (.ok out, memory')) {c : Model} (hc : c ∈ j.concreteModels)
    {f : Field} (hf : f ∈ c.fields) (dropped : j.emits c f = false) :
    (j.Reaches out c.name f.name ↔ ∃ holder ∈ j.concreteModels,
      TransGen j.schema.ListsDelegate c.name holder.name ∧
        f.name ∈ j.columnNames memory' holder) ∧
    ((∀ m ∈ j.schema.models, ReflTransGen j.schema.ListsDelegate c.name m.name →
        ∀ base ∈ m.superTypes, ∀ b, j.schema.model? base = some b → f.name ∈ b.fieldNames →
          b.isDelegate = true ∧ b.isAbstract = false) →
      j.Reaches out c.name f.name) := by
  obtain ⟨own, _, merges⟩ := Schema.merges_of_ofDocument resolved plain
  have exact_condition : j.Reaches out c.name f.name ↔ _ :=
    reaches_iff_exists_holder merges physical built hc
  refine ⟨exact_condition, ?_⟩
  intro unbroken
  have found := Schema.model?_of_mem merges.modelNames_nodup (mem_concreteModels.1 hc).1
  obtain ⟨holder, hholder, path, g, hg, emitted, named⟩ :=
    exists_holder merges physical unbroken ReflTransGen.refl found hf rfl dropped
  refine exact_condition.2 ⟨holder, hholder, path, ?_⟩
  exact List.mem_append_left _ (List.mem_map.2 ⟨g, List.mem_filter.2 ⟨hg, emitted⟩, named⟩)

/-- In the kennel, where dogs and animals are delegates, the puppies reach their names. -/
theorem kennel_reaches_name :
    ∃ (j : Job) (memory' : Memory) (out : Target.Schema),
      Schema.ofDocument kennel = .ok j.schema ∧ j.mode = .physical ∧
      j.build (Memory.ofLength Identifier.standardLength) = (.ok out, memory') ∧
      ∃ puppy ∈ j.concreteModels, puppy.name = "Puppy" ∧
        ∃ f ∈ puppy.fields, f.name = "name" ∧ j.emits puppy f = false ∧
          j.Reaches out puppy.name f.name := by
  have builds : kennel.buildsTo .physical (fun j _ =>
      (j.concreteModels.any fun puppy => puppy.name == "Puppy" &&
        puppy.fields.any fun f => f.name == "name" && !j.emits puppy f) &&
      j.schema.models.all fun m => m.superTypes.all fun base =>
        (j.schema.model? base).all fun b => b.isDelegate && !b.isAbstract) = true := by
    decide +kernel
  obtain ⟨j, out, memory', resolved, physical, built, test⟩ := Document.exists_build builds
  simp only [Bool.and_eq_true, List.any_eq_true, List.all_eq_true, beq_iff_eq, Bool.not_eq_true',
    Option.all_eq_true] at test
  obtain ⟨⟨puppy, hpuppy, isPuppy, f, hf, isName, dropped⟩, delegates⟩ := test
  have reached := (reaches_dropped_column_iff resolved rfl physical built hpuppy hf dropped).2
    (fun m hm _ base listed b found _ => delegates m hm base listed b found)
  exact ⟨j, memory', out, resolved, physical, built, puppy, hpuppy, isPuppy, f, hf, isName,
    dropped, reached⟩

/-- Dogs are animals and puppies are dogs, but only the animals are a delegate. -/
def litter : Document where
  declarations := [
    .model { name := "Animal", isDelegate := true, fields := animalFields },
    .model { name := "Dog", superTypes := ["Animal"] },
    .model { name := "Puppy", superTypes := ["Dog"] }]

/-- **A column can be lost**: the name of a puppy is stored by the animals and left out of the
    puppies, which have no link at all. -/
theorem puppy_loses_column :
    ∃ (j : Job) (memory' : Memory) (out : Target.Schema),
      Schema.ofDocument litter = .ok j.schema ∧ litter.flattened = false ∧ j.mode = .physical ∧
      j.build (Memory.ofLength Identifier.standardLength) = (.ok out, memory') ∧
      ∃ puppy ∈ j.concreteModels, puppy.name = "Puppy" ∧
        ∃ f ∈ puppy.fields, f.name = "name" ∧ j.emits puppy f = false ∧
          ¬ j.Reaches out puppy.name f.name := by
  have builds : litter.buildsTo .physical (fun j _ =>
      j.concreteModels.any fun puppy => puppy.name == "Puppy" &&
        (puppy.fields.any fun f => f.name == "name" && !j.emits puppy f) &&
        puppy.superTypes.all fun base =>
          (j.schema.model? base).all fun b => !b.isDelegate) = true := by
    decide +kernel
  obtain ⟨j, out, memory', resolved, physical, built, test⟩ := Document.exists_build builds
  simp only [Bool.and_eq_true, List.any_eq_true, List.all_eq_true, beq_iff_eq, Bool.not_eq_true',
    Option.all_eq_true] at test
  obtain ⟨puppy, hpuppy, ⟨isPuppy, f, hf, isName, dropped⟩, noDelegate⟩ := test
  obtain ⟨own, _, merges⟩ := Schema.merges_of_ofDocument resolved rfl
  have found := Schema.model?_of_mem merges.modelNames_nodup (mem_concreteModels.1 hpuppy).1
  refine ⟨j, memory', out, resolved, rfl, physical, built, puppy, hpuppy, isPuppy, f, hf, isName,
    dropped, ?_⟩
  rw [reaches_iff_exists_holder merges physical built hpuppy]
  intro ⟨holder, _, path, _⟩
  obtain ⟨base, ⟨listed, b, hb, delegate, _⟩, _⟩ := TransGen.head'_iff.1 path
  rw [noDelegate base ((Schema.lists_iff found).1 listed) b hb] at delegate
  cases delegate

end Job

end DelegateSchema
