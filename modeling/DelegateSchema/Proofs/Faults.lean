/-
  DelegateSchema.Proofs.Faults — where the faults of a logical compilation come from.

  Widening compiles again what it copies: the keys of a relation, and a relation attribute that is
  taken over.  Each of these steps can fail, but all of them were compiled before, with the fields
  of the model.  So a model whose fields and attributes compile can be widened, and every fault of
  a compilation is the fault of a field or an attribute of the model itself.

  Main results:
    * `Schema.isTarget_of_relationUsage` — a relation is an attribute of the target language, in
      flattened documents too,
    * `canBeTakenOver_of_compiled` — a relation of a field that compiles can be repeated,
    * `widening_adds_no_fault` — widening succeeds where the model compiles.
-/
import DelegateSchema.Proofs.Compilability
import DelegateSchema.Proofs.RelationNames

namespace DelegateSchema

open Identifier (Memory)

/-! ## §1. Relations that are compiled -/

namespace Schema

variable {d : Document} {s : Schema}

/-- In a flattened document every field is resolved where it stands. -/
theorem isTarget_of_flattened (h : ofDocument d = .ok s) (flattened : d.flattened = true)
    (unresolved : d.Unresolved) (kept : ∀ decl ∈ d.attributes, decl.name ≠ "@relation")
    {m : Model} (hm : m ∈ s.models) {f : Field} (hf : f ∈ m.fields) {a : Attribute}
    (ha : a ∈ f.attributes) (relation : a.isNamed "@relation" = true) : a.isTarget = true := by
  obtain ⟨decls, resolved, _, rest⟩ := ofDocument_eq_ok_iff.1 h
  rw [flattened] at rest
  obtain ⟨_, rfl⟩ := rest
  obtain ⟨u, hu, resolves⟩ := forall₂_exists_left (Registry.resolvesModels resolved) hm
  obtain ⟨g, hg, usages, all, rfl⟩ := forall₂_exists_left resolves.fields hf
  obtain ⟨written, hwritten, ok⟩ := forall₂_exists_left all ha
  exact Document.isTarget_of_resolve kept
    (unresolved written (Document.mem_usages_of_field hu hg hwritten)).resolved ok relation

theorem isTarget_of_relationUsage (h : ofDocument d = .ok s) (unresolved : d.Unresolved)
    (kept : ∀ decl ∈ d.attributes, decl.name ≠ "@relation") {m : Model} (hm : m ∈ s.models)
    {f : Field} (hf : f ∈ m.fields) {a : Attribute} (ha : a ∈ f.attributes)
    (relation : a.isNamed "@relation" = true) : a.isTarget = true := by
  cases flattened : d.flattened with
  | true => exact isTarget_of_flattened h flattened unresolved kept hm hf ha relation
  | false => exact isTarget_of_relation h flattened unresolved kept hm hf ha relation

end Schema

namespace Job

variable {j : Job} {m : Model}

/-- A field that compiles has a relation that can be written, if it has one at all: the relation is
    among the usages that were compiled with the field. -/
theorem canBeTakenOver_of_compiled {f : Field}
    (targets : ∀ a ∈ f.attributes, a.isNamed "@relation" = true → a.isTarget = true)
    (compiled : ∃ g, j.toTargetField m f = .ok g) : f.CanBeTakenOver := by
  intro relation found _
  have member : relation ∈ f.attributes := List.mem_of_find?_eq_some found
  have named : relation.isNamed "@relation" = true := by simpa using List.find?_some found
  obtain ⟨_, usages, _⟩ := exists_toTargetField_iff.1 compiled
  exact usages relation member
    (keepsAttribute_of_isNamed (by decide) (targets relation member named) named)

theorem exists_widen_of_ownBlock (logical : j.mode = .logical)
    (targets : ∀ f ∈ m.fields, ∀ a ∈ f.attributes,
      a.isNamed "@relation" = true → a.isTarget = true)
    {start : Target.ModelBlock} (own : j.ownBlock m = .ok start) (shortOf : String → String) :
    ∃ block, (j.widen m start).answer shortOf = .ok block := by
  obtain ⟨fields, _⟩ := exists_ownBlock_iff.1 ⟨start, own⟩
  have compiled : ∀ f ∈ m.fields, ∃ g, j.toTargetField m f = .ok g :=
    fun f hf => fields f hf (emits_logical logical m f)
  refine (exists_widen_iff compiled).2 ?_
  intro f hf _
  exact canBeTakenOver_of_compiled (targets f hf) (compiled f hf)

/-! ## §2. Faults -/

/-- What the block of a model starts with fails for a field or an attribute of the model. -/
theorem exists_fault_of_ownBlock {fault : CompileError} (h : j.ownBlock m = .error fault) :
    (∃ f ∈ m.fields, j.toTargetField m f = .error fault) ∨
      ∃ a ∈ m.attributes, a.isTarget = true ∧ a.toTarget = .error fault := by
  unfold ownBlock at h
  rcases bind_error h with inField | ⟨_, _, h⟩
  · obtain ⟨f, hf, fails⟩ := exists_of_mapM_error inField
    exact Or.inl ⟨f, List.mem_of_mem_filter hf, fails⟩
  · rcases bind_error h with inAttribute | ⟨_, _, h⟩
    · obtain ⟨a, ha, fails⟩ := exists_of_mapM_error inAttribute
      obtain ⟨member, target⟩ := List.mem_filter.1 ha
      exact Or.inr ⟨a, member, target, fails⟩
    · cases h

/-- In logical mode a model fails where the block it starts with does, if it can be widened. -/
theorem compileModel_eq_error_iff (logical : j.mode = .logical) {shortOf : String → String}
    (widens : ∀ start, j.ownBlock m = .ok start →
      ∃ block, (j.widen m start).answer shortOf = .ok block) {fault : CompileError} :
    (j.compileModel m).answer shortOf = .error fault ↔ j.ownBlock m = .error fault := by
  unfold compileModel
  rw [Compile.answer_bind, Compile.answer_ofExcept]
  cases own : j.ownBlock m with
  | error e => exact Iff.rfl
  | ok start =>
    refine iff_of_false ?_ (fun h => nomatch h)
    obtain ⟨block, widened⟩ := widens start own
    intro fails
    have completed : (j.completeBlock m start).answer shortOf = .error fault := fails
    unfold completeBlock at completed
    rw [logical] at completed
    simp only [Compile.answer_bind, Compile.answer_lift, widened] at completed
    cases completed

/-- A compilation that succeeds whatever the answers succeeds with every memory. -/
theorem exists_run_ok {α : Type} {x : Compile α}
    (succeeds : ∀ shortOf, ∃ a, x.answer shortOf = .ok a) (memory : Memory) :
    ∃ a memory', x.run.run memory = (.ok a, memory') := by
  obtain ⟨a, ok⟩ := succeeds (x.run.run memory).2.shorten
  have answers : (x.run.run memory).1 = .ok a :=
    (Identifier.Asking.run_fst x.run memory).trans ok
  exact ⟨a, (x.run.run memory).2, Prod.ext answers rfl⟩

/-- **Widening adds no fault.**  In the schema of a document that does not declare relations anew,
    a concrete model whose fields and attributes compile can be widened, whatever the memory of
    identifiers.  So a logical compilation of the model fails exactly with the faults of its own
    fields and attributes.  The document comes with the slots of its usages empty, as every
    document that was read; it may be flattened. -/
theorem widening_adds_no_fault {d : Document} {j : Job} (unresolved : d.Unresolved)
    (resolved : Schema.ofDocument d = .ok j.schema)
    (kept : ∀ decl ∈ d.attributes, decl.name ≠ "@relation") (logical : j.mode = .logical)
    {m : Model} (hm : m ∈ j.concreteModels) (memory : Memory) :
    (∀ start, j.ownBlock m = .ok start →
      ∃ block memory', (j.widen m start).run.run memory = (.ok block, memory')) ∧
    ∀ fault,
      (((j.compileModel m).run.run memory).1 = .error fault ↔ j.ownBlock m = .error fault) ∧
      (j.ownBlock m = .error fault →
        (∃ f ∈ m.fields, j.toTargetField m f = .error fault) ∨
          ∃ a ∈ m.attributes, a.isTarget = true ∧ a.toTarget = .error fault) := by
  obtain ⟨known, _⟩ := mem_concreteModels.1 hm
  have widens : ∀ start, j.ownBlock m = .ok start → ∀ shortOf,
      ∃ block, (j.widen m start).answer shortOf = .ok block := by
    intro start own shortOf
    refine exists_widen_of_ownBlock logical ?_ own shortOf
    intro f hf a ha
    exact Schema.isTarget_of_relationUsage resolved unresolved kept known hf ha
  refine ⟨fun start own => exists_run_ok (widens start own) memory, fun fault => ⟨?_, ?_⟩⟩
  · have answers : ((j.compileModel m).run.run memory).1 =
        (j.compileModel m).answer ((j.compileModel m).run.run memory).2.shorten :=
      Identifier.Asking.run_fst (j.compileModel m).run memory
    rw [answers]
    exact compileModel_eq_error_iff logical fun start own => widens start own _
  · exact exists_fault_of_ownBlock

/-- Videos are assets.  A film has an asset as its cover and other assets as clips, which are
    related under an alias; a draft has a default that no stand-in can replace. -/
def cinema : Document where
  attributes := [{ name := "@link", aliasOf := some "@relation" }]
  declarations := [
    .model {
      name := "Asset"
      isDelegate := true
      fields := [
        { name := "id", type := { scalar := some "Int" }, attributes := [{ name := "@id" }] }] },
    .model { name := "Video", superTypes := ["Asset"] },
    .model {
      name := "Film"
      fields := [
        { name := "coverId", type := { scalar := some "Int" } },
        { name := "cover"
          type := { reference := some "Asset" }
          attributes := [
            { name := "@relation"
              args := [keyList "fields" "coverId", keyList "references" "id"] }] },
        { name := "clips"
          type := { reference := some "Asset", array := true }
          attributes := [
            { name := "@link"
              args := [{ name := none, value := .literal (.string "clips") }] }] }] },
    .model {
      name := "Draft"
      fields := [
        { name := "film", type := { reference := some "Film" }, attributes := [ownerDefault] },
        { name := "assets", type := { reference := some "Asset", array := true } }] }]

/-- The relations of a film are widened for videos, one with its key and one under the alias.  A
    draft does not compile, for a reason that has to do with its own fields. -/
theorem film_widens_and_draft_fails :
    ∃ (j : Job) (film draft : Model), Schema.ofDocument cinema = .ok j.schema ∧
      j.mode = .logical ∧ film ∈ j.concreteModels ∧ draft ∈ j.concreteModels ∧
      (∃ start block memory', j.ownBlock film = .ok start ∧
        (j.widen film start).run.run (Memory.ofLength Identifier.standardLength) =
          (.ok block, memory') ∧
        block.fieldNames = ["coverId", "cover", "clips", "delegate_aux_Film_cover_Video",
          "delegate_aux_Film_coverId_Video", "delegate_aux_Film_clips_Video"]) ∧
      ∃ fault, ((j.compileModel draft).run.run (Memory.ofLength Identifier.standardLength)).1 =
          .error fault ∧
        ∃ f ∈ draft.fields, j.toTargetField draft f = .error fault := by
  have resolves : (Schema.ofDocument cinema).toOption.any (fun schema =>
      let j : Job := { schema, mode := .logical }
      (j.concreteModels.any fun film => (j.ownBlock film).toOption.any fun start =>
        ((j.widen film start).run.run (Memory.ofLength Identifier.standardLength)).1.toOption.all
          fun block => block.fieldNames == ["coverId", "cover", "clips",
            "delegate_aux_Film_cover_Video", "delegate_aux_Film_coverId_Video",
            "delegate_aux_Film_clips_Video"]) &&
      j.concreteModels.any fun draft =>
        (j.ownBlock draft).toOption.isNone && draft.attributes.isEmpty) = true := by
    decide +kernel
  have slots : ∀ a ∈ cinema.usages, a.resolved = none ∧ ∀ arg ∈ a.args, arg.param = none := by
    decide
  have unresolved : cinema.Unresolved := fun a ha => ⟨(slots a ha).1, (slots a ha).2⟩
  have kept : ∀ decl ∈ cinema.attributes, decl.name ≠ "@relation" := by decide
  simp only [Option.any_eq_true, Option.all_eq_true, Bool.and_eq_true, List.any_eq_true,
    beq_iff_eq] at resolves
  obtain ⟨schema, resolved, ⟨film, hfilm, start, own, names⟩, draft, hdraft, fails, bare⟩ :=
    resolves
  have resolved := eq_ok_of_toOption resolved
  have own := eq_ok_of_toOption own
  refine ⟨{ schema, mode := .logical }, film, draft, resolved, rfl, hfilm, hdraft, ?_, ?_⟩
  · obtain ⟨widens, _⟩ := widening_adds_no_fault unresolved resolved kept rfl hfilm
      (Memory.ofLength Identifier.standardLength)
    obtain ⟨block, memory', run⟩ := widens start own
    refine ⟨start, block, memory', own, run, names block ?_⟩
    rw [run]
    rfl
  · obtain ⟨_, faults⟩ := widening_adds_no_fault unresolved resolved kept rfl hdraft
      (Memory.ofLength Identifier.standardLength)
    cases failed : ({ schema, mode := .logical } : Job).ownBlock draft with
    | ok start =>
      rw [failed] at fails
      cases fails
    | error fault =>
      obtain ⟨fault_iff, reasons⟩ := faults fault
      refine ⟨fault, fault_iff.2 failed, ?_⟩
      rcases reasons failed with inField | ⟨a, ha, _⟩
      · exact inField
      · rw [List.isEmpty_iff.1 bare] at ha
        cases ha

end Job

end DelegateSchema
