/-
  DelegateSchema.Proofs.LinkKeys — which links to a delegate are keyed on columns.

  Two functions say what identifies the rows of a model.  The one lists the identifier, and a link
  is keyed on what it lists; the other is asked field by field, and decides which columns a subtype
  repeats.  Only the second takes a unique field for the identifier of a model that gives none.  So
  whatever the first one lists identifies rows, but a model can have identified rows and list
  nothing, and then the links of its subtypes are keyed on no column at all.

  Main results:
    * `Model.identified_iff` — rows are identified by a listed identifier or by a stand-in,
    * `Model.idFields_eq_nil_iff` — from it, when no identifier is listed,
    * `identifier_notions_agree_iff` — the notions agree exactly where nothing stands in, and which
      links are keyed on no column,
    * `label_stands_in` — a delegate with such a link.
-/
import DelegateSchema.Proofs.ClosedRelations

namespace DelegateSchema

open Identifier (Memory)

/-! ## §1. What identifies rows -/

namespace Model

variable {m : Model} {f : Field}

/-- Some field identifies the rows of the model. -/
def Identified (m : Model) : Prop :=
  ∃ f ∈ m.fields, m.isIdField f = true

/-- The model gives no identifier, but it has a unique field, or fields that are unique together. -/
structure HasStandIn (m : Model) : Prop where
  unmarked : ∀ f ∈ m.fields, f.hasAttribute "@id" = false
  unlisted : m.listedFields "@@id" = []
  unique : (∃ f ∈ m.fields, f.hasAttribute "@unique" = true) ∨ m.listedFields "@@unique" ≠ []

theorem keyFields_eq_nil_iff {mark list : String} :
    m.keyFields mark list = [] ↔
      (∀ f ∈ m.fields, f.hasAttribute mark = false) ∧ m.listedFields list = [] := by
  unfold keyFields
  cases found : m.fields.find? (·.hasAttribute mark) with
  | some f =>
    refine iff_of_false (List.cons_ne_nil f []) fun ⟨unmarked, _⟩ => ?_
    have marked : f.hasAttribute mark = true := by simpa using List.find?_some found
    rw [unmarked f (List.mem_of_find?_eq_some found)] at marked
    cases marked
  | none =>
    refine (and_iff_right ?_).symm
    intro f hf
    simpa using List.find?_eq_none.1 found f hf

theorem hasStandIn_iff :
    m.HasStandIn ↔ m.idFields = [] ∧ m.keyFields "@unique" "@@unique" ≠ [] := by
  rw [idFields_eq, Ne, keyFields_eq_nil_iff, keyFields_eq_nil_iff]
  constructor
  · intro h
    refine ⟨⟨h.unmarked, h.unlisted⟩, fun ⟨unmarked, unlisted⟩ => ?_⟩
    rcases h.unique with ⟨f, hf, unique⟩ | together
    · rw [unmarked f hf] at unique
      cases unique
    · exact together unlisted
  · rintro ⟨⟨unmarked, unlisted⟩, unique⟩
    refine ⟨unmarked, unlisted, ?_⟩
    by_contra neither
    rw [not_or, not_exists, not_not] at neither
    exact unique ⟨fun f hf => by simpa using fun h => neither.1 f ⟨hf, h⟩, neither.2⟩

/-- Without an identifier, the unique fields that stand in for it count. -/
theorem isIdField_of_idFields_eq_nil (none_given : m.idFields = []) (hf : f ∈ m.fields) :
    m.isIdField f = (m.keyFields "@unique" "@@unique").any (·.name == f.name) := by
  obtain ⟨unmarked, unlisted⟩ := keyFields_eq_nil_iff.1 none_given
  have nowhere : (m.fields.any fun f => f.hasAttribute "@id") = false :=
    List.any_eq_false.2 fun g hg => by simp [unmarked g hg]
  unfold isIdField keyFields
  simp only [unlisted, unmarked f hf, nowhere]
  cases m.fields.find? (·.hasAttribute "@unique") with
  | some first => simp
  | none => simp

/-- **Rows are identified by a listed identifier or by a stand-in.** -/
theorem identified_iff : m.Identified ↔ m.idFields ≠ [] ∨ m.HasStandIn := by
  rw [hasStandIn_iff]
  by_cases none_given : m.idFields = []
  · have identifies := fun f hf => isIdField_of_idFields_eq_nil (f := f) none_given hf
    simp only [none_given, ne_eq, not_true_eq_false, false_or, true_and]
    constructor
    · intro ⟨f, hf, counts⟩
      rw [identifies f hf] at counts
      obtain ⟨g, hg, _⟩ := List.any_eq_true.1 counts
      exact List.ne_nil_of_mem hg
    · intro unique
      obtain ⟨f, hf⟩ := List.exists_mem_of_ne_nil _ unique
      have member := mem_fields_of_mem_keyFields hf
      refine ⟨f, member, ?_⟩
      rw [identifies f member]
      exact List.any_eq_true.2 ⟨f, hf, beq_self_eq_true f.name⟩
  · refine iff_of_true ?_ (Or.inl none_given)
    obtain ⟨f, hf⟩ := List.exists_mem_of_ne_nil _ none_given
    exact ⟨f, mem_fields_of_mem_idFields hf, isIdField_of_mem_idFields hf⟩

/-- No identifier is listed where one stands in, or where rows are not identified. -/
theorem idFields_eq_nil_iff : m.idFields = [] ↔ m.HasStandIn ∨ ¬ m.Identified := by
  rw [identified_iff, not_or, not_not]
  constructor
  · intro none_given
    by_cases standIn : m.HasStandIn
    · exact Or.inl standIn
    · exact Or.inr ⟨none_given, standIn⟩
  · rintro (standIn | ⟨none_given, _⟩)
    · exact (hasStandIn_iff.1 standIn).1
    · exact none_given

end Model

/-! ## §2. What links are keyed on -/

namespace Job

variable {j : Job} {memory : Memory}

/-- A generated field that is not optional is the link to a delegate that the model lists, also
    where the super types run in circles. -/
theorem exists_base_of_generated {c : Model} {block : Target.ModelBlock}
    (physical : j.mode = .physical) (ok : (j.compileModel c).answer memory.shorten = .ok block)
    {g : Target.Field} (hg : g ∈ j.generatedFields c block) (required : g.type.optional = false) :
    ∃ b, j.schema.model? b.name = some b ∧ b.isDelegate = true ∧ b.name ∈ c.superTypes ∧
      g = j.baseLink memory c b := by
  obtain ⟨start, own, rest⟩ := compileModel_eq_ok ok
  have emitted := (mapM_ok_iff.1 (ownBlock_eq_ok own).2).length_eq
  rw [generatedFields, completeBlock_physical physical rest, emitted, List.drop_left] at hg
  unfold links at hg
  simp only [Identifier.Asking.answer_bind, Identifier.Asking.answer_pure, answer_linksToBases]
    at hg
  rcases List.mem_append.1 hg with down | up
  · -- a link to a subtype is optional
    unfold linksToSubtypes at down
    split at down
    next =>
      rw [Identifier.Asking.answer_mapM] at down
      obtain ⟨subtype, _, rfl⟩ := List.mem_map.1 down
      rw [answer_linkToSubtype] at required
      cases required
    next => cases down
  · exact exists_base_of_required (List.mem_append_right _ up) required

/-- **The two notions of an identifier agree exactly where nothing stands in for it.**  Whatever a
    model lists as its identifier identifies its rows.  If rows are identified then an identifier is
    listed, unless a unique field stands in.  In a physical build the link to a delegate is keyed on
    the identifier that the delegate lists, so it is keyed on no column exactly where a unique field
    stands in, or where rows of the delegate are not identified at all. -/
theorem identifier_notions_agree_iff {d : Document} {j : Job}
    (resolved : Schema.ofDocument d = .ok j.schema) :
    (∀ m ∈ j.schema.models,
      (∀ f ∈ m.idFields, f ∈ m.fields ∧ m.isIdField f = true) ∧
      ((m.Identified → m.idFields ≠ []) ↔ ¬ m.HasStandIn)) ∧
    ∀ memory memory' out, j.mode = .physical → j.build memory = (.ok out, memory') →
      ∀ c ∈ j.concreteModels, ∀ block, out.findModel? c.name = some block →
        ∀ g ∈ j.generatedFields c block, g.type.optional = false →
          ∃ b relation, j.schema.model? g.type.name = some b ∧ b.isDelegate = true ∧
            b.name ∈ c.superTypes ∧ g.attribute? "@relation" = some relation ∧
            relation.fieldList "fields" = b.idFields.map (·.name) ∧
            (relation.fieldList "fields" = [] ↔ b.HasStandIn ∨ ¬ b.Identified) := by
  constructor
  · intro m _
    refine ⟨fun f hf => ?_, ?_⟩
    · exact ⟨Model.mem_fields_of_mem_idFields hf, Model.isIdField_of_mem_idFields hf⟩
    · rw [Model.identified_iff]
      constructor
      · intro agree standIn
        exact agree (Or.inr standIn) (Model.hasStandIn_iff.1 standIn).1
      · intro nothing identified
        exact identified.resolve_right nothing
  · intro memory memory' out physical built c hc block found g hg required
    have distinct := Schema.modelNames_nodup_of_ofDocument resolved
    have ok := (compileModel_of_findModel? built distinct (mem_concreteModels.1 hc).1 found).2
    obtain ⟨b, hb, delegate, listed, rfl⟩ := exists_base_of_generated physical ok hg required
    obtain ⟨relation, isRelation, fields, _⟩ := relation_baseLink j memory' c b
    refine ⟨b, relation, hb, delegate, listed, isRelation, fields, ?_⟩
    rw [fields, List.map_eq_nil_iff, Model.idFields_eq_nil_iff]

/-- Animals have a colour, and a label that carries a mark; dogs are animals. -/
def labelledBy (mark : String) : Document where
  declarations := [
    .model {
      name := "Animal"
      isDelegate := true
      fields := [
        { name := "label", type := { scalar := some "String" }, attributes := [{ name := mark }] },
        { name := "color", type := { scalar := some "String" } }] },
    .model { name := "Dog", superTypes := ["Animal"] }]

/-- Where the label is the identifier of the animals, the link of the dogs is keyed on it. -/
theorem dogs_keyed_on_label :
    ∃ (j : Job) (memory' : Memory) (out : Target.Schema),
      Schema.ofDocument (labelledBy "@id") = .ok j.schema ∧ j.mode = .physical ∧
      j.build (Memory.ofLength Identifier.standardLength) = (.ok out, memory') ∧
      ∃ dog ∈ j.concreteModels, ∃ block, out.findModel? dog.name = some block ∧
        ∃ g ∈ j.generatedFields dog block, ∃ animal relation,
          j.schema.model? g.type.name = some animal ∧ animal.Identified ∧ ¬ animal.HasStandIn ∧
          g.attribute? "@relation" = some relation ∧
          relation.fieldList "fields" = animal.idFields.map (·.name) ∧
          relation.fieldList "fields" ≠ [] := by
  have builds : (labelledBy "@id").buildsTo .physical (fun j out =>
      j.concreteModels.any fun dog => (out.findModel? dog.name).any fun block =>
        (j.generatedFields dog block).any fun g => !g.type.optional &&
          (j.schema.model? g.type.name).all fun animal => !animal.idFields.isEmpty) = true := by
    decide +kernel
  obtain ⟨j, out, memory', resolved, physical, built, test⟩ := Document.exists_build builds
  simp only [List.any_eq_true, Bool.and_eq_true, Option.any_eq_true, Option.all_eq_true,
    Bool.not_eq_true'] at test
  obtain ⟨dog, hdog, block, found, g, hg, required, keyed⟩ := test
  obtain ⟨models, links⟩ := identifier_notions_agree_iff resolved
  obtain ⟨animal, relation, hanimal, _, _, isRelation, fields, _⟩ :=
    links _ memory' out physical built dog hdog block found g hg required
  have given : animal.idFields ≠ [] := fun none_given => by
    simpa [none_given] using keyed animal hanimal
  refine ⟨j, memory', out, resolved, physical, built, dog, hdog, block, found, g, hg, animal,
    relation, hanimal, Model.identified_iff.2 (Or.inl given), ?_, isRelation, fields, ?_⟩
  · exact (models animal (mem_of_findModel? hanimal)).2.1 fun _ => given
  · rw [fields]
    simpa using given

/-- **A delegate with identified rows can have subtypes whose links are keyed on nothing**: a unique
    label identifies the animals, and the dogs repeat it, but it is not what their link is keyed
    on. -/
theorem label_stands_in :
    ∃ (j : Job) (memory' : Memory) (out : Target.Schema),
      Schema.ofDocument (labelledBy "@unique") = .ok j.schema ∧ j.mode = .physical ∧
      j.build (Memory.ofLength Identifier.standardLength) = (.ok out, memory') ∧
      ∃ animal ∈ j.schema.models, animal.isDelegate = true ∧ animal.fieldNames.Nodup ∧
        animal.Identified ∧ animal.idFields = [] ∧
        ∃ dog ∈ j.concreteModels, ∃ block, out.findModel? dog.name = some block ∧
          block.fieldNames = ["label", "delegate_aux_animal"] ∧
          ∃ g ∈ j.generatedFields dog block, g.type = ⟨animal.name, false, false⟩ ∧
            (g.attribute? "@relation").map (·.fieldList "fields") = some [] := by
  have builds : (labelledBy "@unique").buildsTo .physical (fun j out =>
      j.schema.models.any fun animal => animal.isDelegate && decide animal.fieldNames.Nodup &&
        animal.fields.any animal.isIdField && animal.idFields.isEmpty &&
        j.concreteModels.any fun dog => (out.findModel? dog.name).any fun block =>
          block.fieldNames == ["label", "delegate_aux_animal"] &&
          (j.generatedFields dog block).any fun g => g.type == ⟨animal.name, false, false⟩ &&
            (g.attribute? "@relation").map (·.fieldList "fields") == some []) = true := by
    decide +kernel
  obtain ⟨j, out, memory', resolved, physical, built, test⟩ := Document.exists_build builds
  simp only [List.any_eq_true, Bool.and_eq_true, beq_iff_eq, Option.any_eq_true, decide_eq_true_eq,
    List.isEmpty_iff] at test
  obtain ⟨animal, hanimal, ⟨⟨⟨delegate, distinct⟩, identified⟩, none_given⟩, dog⟩ := test
  obtain ⟨dog, hdog, block, found, names, link⟩ := dog
  exact ⟨j, memory', out, resolved, physical, built, animal, hanimal, delegate, distinct,
    identified, none_given, dog, hdog, block, found, names, link⟩

end Job

end DelegateSchema
