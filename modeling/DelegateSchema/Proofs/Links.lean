/-
  DelegateSchema.Proofs.Links — physical links run both ways.

  In physical mode the block of a model is its emitted fields, then the links to its subtypes,
  then the links to its bases.  Nothing in the definitions ties the two kinds of links together:
  one side is collected by going through the models of the schema, the other by going through the
  super types of one model.  `physical_links_symmetric` says that they match: a delegate and a
  model are linked from both sides, once each, exactly when the model lists the delegate.
-/
import DelegateSchema.Proofs.Blocks
import Mathlib.Data.List.Nodup

namespace DelegateSchema

open Identifier (Memory)

namespace Job

/-! ## §1. The links of a model -/

/-- The optional field by which a delegate refers to a subtype. -/
def subtypeLink (memory : Memory) (concrete : Model) : Target.Field where
  name := memory.identifier (Text.lowerFirst concrete.name)
  type := ⟨concrete.name, false, true⟩

/-- The required field by which a model refers to a delegate that it lists.  It is tied to the
    identifier of the delegate under the same names, and its constraint has a name where the
    provider allows for one. -/
def baseLink (j : Job) (memory : Memory) (m base : Model) : Target.Field where
  name := memory.identifier (Text.lowerFirst base.name)
  type := ⟨base.name, false, false⟩
  attributes := [.of "@relation" (
    [.named "fields" (.fieldRefs (base.idFields.map (·.name))),
     .named "references" (.fieldRefs (base.idFields.map (·.name))),
     .named "onDelete" (.fieldRef "Cascade"),
     .named "onUpdate" (.fieldRef "Cascade")] ++
    if j.schema.namesConstraints then
      [.named "map" (.string
        (memory.identifier (m.name ++ "_" ++ Text.lowerFirst base.name) ++ "_fk"))]
    else [])]

/-- The links of a delegate: one for each concrete model that lists it, in source order. -/
def subtypeLinks (j : Job) (memory : Memory) (m : Model) : List Target.Field :=
  if m.isDelegate then
    (j.concreteModels.filter fun c => c.superTypes.contains m.name).map (subtypeLink memory)
  else []

/-- The links of a model to the delegates that it lists, in listed order. -/
def baseLinks (j : Job) (memory : Memory) (m : Model) : List Target.Field :=
  ((m.superTypes.filterMap j.schema.model?).filter (·.isDelegate)).map (j.baseLink memory m)

variable {j : Job} {memory : Memory}

theorem answer_linkToSubtype (concrete : Model) :
    (linkToSubtype concrete).answer memory.shorten = subtypeLink memory concrete := by
  simp [linkToSubtype, subtypeLink, Memory.identifier_eq]

theorem answer_linkToBase (m base : Model) :
    (j.linkToBase m base).answer memory.shorten = j.baseLink memory m base := by
  unfold linkToBase linkConstraint baseLink
  split
  next => simp [Memory.identifier_eq]
  next => simp [Memory.identifier_eq]

theorem answer_linksToBases (m : Model) :
    (j.linksToBases m).answer memory.shorten = j.baseLinks memory m := by
  unfold linksToBases baseLinks delegateBases
  rw [Identifier.Asking.answer_mapM]
  exact List.map_congr_left fun base _ => answer_linkToBase m base

/-- No model lists itself, so the subtypes of a delegate are all the models that list it. -/
theorem directSubtypes_eq (acyclic : ∀ c ∈ j.schema.models, c.name ∉ c.superTypes) (m : Model) :
    j.schema.directSubtypes m =
      j.concreteModels.filter fun c => c.superTypes.contains m.name := by
  unfold Schema.directSubtypes concreteModels
  rw [List.filter_filter]
  refine List.filter_congr fun c hc => ?_
  by_cases listed : m.name ∈ c.superTypes
  · -- the search leaves out the delegate itself, which does not list itself anyway
    have other : c.name ≠ m.name := fun same => acyclic c hc (same ▸ listed)
    simp [listed, other]
  · simp [listed]

theorem answer_linksToSubtypes {m : Model}
    (acyclic : ∀ c ∈ j.schema.models, c.name ∉ c.superTypes) :
    (j.linksToSubtypes m).answer memory.shorten = j.subtypeLinks memory m := by
  unfold linksToSubtypes subtypeLinks
  split
  next =>
    rw [Identifier.Asking.answer_mapM, directSubtypes_eq acyclic]
    exact List.map_congr_left fun c _ => answer_linkToSubtype c
  next => rfl

/-! ## §2. The links between two models -/

theorem filter_name_eq {models : List Model} {m : Model} (distinct : (models.map (·.name)).Nodup)
    (hm : m ∈ models) : models.filter (fun x => x.name == m.name) = [m] := by
  induction models with
  | nil => cases hm
  | cons first rest ih =>
    rw [List.map_cons, List.nodup_cons] at distinct
    rcases List.mem_cons.1 hm with rfl | later
    · have others : rest.filter (fun x => x.name == m.name) = [] := by
        rw [List.filter_eq_nil_iff]
        intro x hx same
        exact distinct.1 (List.mem_map.2 ⟨x, hx, by simpa using same⟩)
      rw [List.filter_cons_of_pos (by simp), others]
    · have other : first.name ≠ m.name := fun same =>
        distinct.1 (same ▸ List.mem_map.2 ⟨m, later, rfl⟩)
      rw [List.filter_cons_of_neg (by simpa using other)]
      exact ih distinct.2 later

/-- From the side of the delegate: one link to a concrete model that lists it. -/
theorem filter_subtypeLinks {b c : Model} (distinct : j.schema.modelNames.Nodup)
    (hc : c ∈ j.concreteModels) :
    (j.subtypeLinks memory b).filter (fun g => g.type.name == c.name) =
      if b.isDelegate = true ∧ b.name ∈ c.superTypes then [subtypeLink memory c] else [] := by
  have alone : j.concreteModels.filter (fun x => x.name == c.name) = [c] :=
    filter_name_eq (distinct.sublist (List.filter_sublist.map _)) hc
  unfold subtypeLinks
  by_cases delegate : b.isDelegate = true
  · rw [if_pos delegate, List.filter_map, List.filter_comm]
    show ((j.concreteModels.filter fun x => x.name == c.name).filter _).map _ = _
    rw [alone]
    by_cases listed : b.name ∈ c.superTypes
    · simp [delegate, listed]
    · simp [listed]
  · simp [delegate]

/-- From the side of the model: one link to a delegate that it lists, if it lists it once. -/
theorem filter_baseLinks {b c : Model} (found : j.schema.model? b.name = some b)
    (once : c.superTypes.Nodup) :
    (j.baseLinks memory c).filter (fun g => g.type.name == b.name) =
      if b.isDelegate = true ∧ b.name ∈ c.superTypes then [j.baseLink memory c b] else [] := by
  -- a model is found under its own name, so the models of that name come from that super type
  have named : (c.superTypes.filterMap j.schema.model?).filter (fun x => x.name == b.name)
      = (c.superTypes.filter (fun name => name == b.name)).filterMap j.schema.model? := by
    rw [List.filter_filterMap, List.filterMap_filter]
    refine List.filterMap_congr fun name _ => ?_
    cases base : j.schema.model? name with
    | none => simp
    | some x =>
      have : x.name = name := name_of_findModel? base
      simp [Option.filter, this]
  have alone : (c.superTypes.filterMap j.schema.model?).filter (fun x => x.name == b.name)
      = if b.name ∈ c.superTypes then [b] else [] := by
    rw [named, List.filter_beq]
    by_cases listed : b.name ∈ c.superTypes
    · rw [List.count_eq_one_of_mem once listed, if_pos listed]
      simp [found]
    · rw [List.count_eq_zero_of_not_mem listed, if_neg listed]
      rfl
  unfold baseLinks
  rw [List.filter_map, List.filter_comm]
  show (((c.superTypes.filterMap j.schema.model?).filter fun x => x.name == b.name).filter _).map _
    = _
  rw [alone]
  by_cases listed : b.name ∈ c.superTypes
  · by_cases delegate : b.isDelegate = true
    · simp [listed, delegate]
    · simp [listed, delegate]
  · simp [listed]

/-! ## §3. The blocks of a physical build -/

/-- The block of a model in physical mode. -/
theorem fields_physical {m : Model} {block : Target.ModelBlock} (physical : j.mode = .physical)
    (acyclic : ∀ c ∈ j.schema.models, c.name ∉ c.superTypes)
    (h : (j.compileModel m).answer memory.shorten = .ok block) :
    ∃ source, (m.fields.filter (j.emits m)).mapM (j.toTargetField m) = .ok source ∧
      block.fields = source ++ j.subtypeLinks memory m ++ j.baseLinks memory m := by
  obtain ⟨start, own, rest⟩ := compileModel_eq_ok h
  have links : (j.links m).answer memory.shorten
      = j.subtypeLinks memory m ++ j.baseLinks memory m := by
    unfold Job.links
    simp only [Identifier.Asking.answer_bind, Identifier.Asking.answer_pure,
      answer_linksToSubtypes acyclic, answer_linksToBases]
  rw [completeBlock_physical physical rest, links]
  exact ⟨start.fields, (ownBlock_eq_ok own).2, (List.append_assoc ..).symm⟩

/-- **Physical links run both ways.**  Where no model lists a super type twice, the block of every
    concrete model is its emitted fields in order, the links to its subtypes in source order, and
    the links to its bases in listed order.  A delegate has one link to a model, and the model one
    to the delegate, when the model lists the delegate; otherwise neither has any. -/
theorem physical_links_symmetric {d : Document} {j : Job} {memory memory' : Memory}
    {out : Target.Schema} (resolved : Schema.ofDocument d = .ok j.schema)
    (plain : d.flattened = false) (once : ∀ u ∈ modelsOf d.declarations, u.superTypes.Nodup)
    (physical : j.mode = .physical) (built : j.build memory = (.ok out, memory')) :
    (∀ m ∈ j.concreteModels, ∃ block source,
      out.findModel? m.name = some block ∧
      (m.fields.filter (j.emits m)).mapM (j.toTargetField m) = .ok source ∧
      block.fields = source ++ j.subtypeLinks memory' m ++ j.baseLinks memory' m) ∧
    ∀ b ∈ j.concreteModels, ∀ c ∈ j.concreteModels,
      (j.subtypeLinks memory' b).filter (fun g => g.type.name == c.name) =
        (if b.isDelegate = true ∧ b.name ∈ c.superTypes then [subtypeLink memory' c] else []) ∧
      (j.baseLinks memory' c).filter (fun g => g.type.name == b.name) =
        (if b.isDelegate = true ∧ b.name ∈ c.superTypes then [j.baseLink memory' c b] else []) := by
  obtain ⟨own, _, merges⟩ := Schema.merges_of_ofDocument resolved plain
  have distinct := merges.modelNames_nodup
  constructor
  · intro m hm
    obtain ⟨known, concrete⟩ := mem_concreteModels.1 hm
    obtain ⟨block, found, ok⟩ := exists_block built distinct known concrete
    obtain ⟨source, emitted, fields⟩ :=
      fields_physical physical (fun c hc => merges.not_listed_self hc) ok
    exact ⟨block, source, found, emitted, fields⟩
  · intro b hb c hc
    have declared_once : c.superTypes.Nodup :=
      Schema.forall_models_of_ofDocument (P := fun _ bases => bases.Nodup) resolved plain once c
        (mem_concreteModels.1 hc).1
    have found := Schema.model?_of_mem distinct (mem_concreteModels.1 hb).1
    exact ⟨filter_subtypeLinks distinct hc, filter_baseLinks found declared_once⟩

/-- Animals have a number and a name. -/
def animalFields : List Field := [
  { name := "id", type := { scalar := some "Int" }, attributes := [{ name := "@id" }] },
  { name := "name", type := { scalar := some "String" } }]

/-- Dogs are animals; puppies are dogs, and list the animals as well. -/
def kennel : Document where
  declarations := [
    .datasource { name := "db", entries := [⟨"provider", .literal (.string "postgresql")⟩] },
    .model { name := "Animal", isDelegate := true, fields := animalFields },
    .model { name := "Dog", isDelegate := true, superTypes := ["Animal"] },
    .model { name := "Puppy", superTypes := ["Dog", "Animal"] }]

/-- In the kennel the animals and the puppies are linked from both sides, beside the dogs. -/
theorem physical_links_symmetric_kennel :
    ∃ (j : Job) (memory' : Memory) (out : Target.Schema),
      Schema.ofDocument kennel = .ok j.schema ∧ j.mode = .physical ∧
      j.build (Memory.ofLength Identifier.standardLength) = (.ok out, memory') ∧
      ∃ animal ∈ j.concreteModels, ∃ puppy ∈ j.concreteModels,
        animal.name = "Animal" ∧ puppy.name = "Puppy" ∧
        (j.subtypeLinks memory' animal).filter (fun g => g.type.name == puppy.name)
          = [subtypeLink memory' puppy] ∧
        (j.baseLinks memory' puppy).filter (fun g => g.type.name == animal.name)
          = [j.baseLink memory' puppy animal] := by
  have builds : kennel.buildsTo .physical (fun j _ =>
      j.concreteModels.any fun animal => j.concreteModels.any fun puppy =>
        animal.name == "Animal" && animal.isDelegate && puppy.name == "Puppy" &&
          puppy.superTypes.contains animal.name) = true := by
    decide +kernel
  obtain ⟨j, out, memory', resolved, physical, built, models⟩ := Document.exists_build builds
  simp only [List.any_eq_true, Bool.and_eq_true, beq_iff_eq, List.contains_iff_mem] at models
  obtain ⟨animal, hanimal, puppy, hpuppy, ⟨⟨isAnimal, delegate⟩, isPuppy⟩, listed⟩ := models
  have once : ∀ u ∈ modelsOf kennel.declarations, u.superTypes.Nodup := by decide
  have links := (physical_links_symmetric resolved rfl once physical built).2
    animal hanimal puppy hpuppy
  rw [if_pos ⟨delegate, listed⟩, if_pos ⟨delegate, listed⟩] at links
  exact ⟨j, memory', out, resolved, physical, built, animal, hanimal, puppy, hpuppy, isAnimal,
    isPuppy, links⟩

end Job

end DelegateSchema
