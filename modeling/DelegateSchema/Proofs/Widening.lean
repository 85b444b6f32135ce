/-
  DelegateSchema.Proofs.Widening — what a logical block holds.

  In logical mode a block starts with all fields of its model.  Widening and the naming of
  relations come after, and between them they make many small edits; what they leave behind is
  `logical_widening_exact`: the fields of the model as they were, and behind them, for each
  widened field and each concrete descendant of the delegate it points to, one relation and the
  copies of its keys.  Nothing is removed, renamed or retyped.
-/
import DelegateSchema.Proofs.Blocks

namespace DelegateSchema

open Identifier (Memory)

namespace Job

variable {j : Job} {m : Model}

/-! ## §1. Descendants -/

/-- **A field is widened for the concrete models below the delegate it points to**, unless it was
    inherited from a delegate. -/
theorem mem_widenedTo (distinct : j.schema.modelNames.Nodup) (f : Field) (concrete : Model) :
    concrete ∈ j.widenedTo m f ↔ j.schema.storingDelegate? m f = none ∧
      ∃ target, j.schema.relationTarget? f = some target ∧ target.isDelegate = true ∧
        concrete ∈ j.schema.models ∧ concrete.isAbstract = false ∧
        j.schema.Below concrete.name target.name := by
  unfold widenedTo
  cases stored : j.schema.storingDelegate? m f with
  | some base => simp
  | none =>
    cases points : j.schema.relationTarget? f with
    | none => simp
    | some target =>
      by_cases delegate : target.isDelegate = true
      · have members : concrete ∈ j.schema.descendants target ↔ concrete ∈ j.schema.models ∧
            concrete.isAbstract = false ∧ j.schema.Below concrete.name target.name := by
          constructor
          · intro h
            have known : concrete ∈ j.schema.models := List.mem_of_mem_filter h
            exact (Schema.mem_descendants (Schema.model?_of_mem distinct known)).1 h
          · intro h
            exact (Schema.mem_descendants (Schema.model?_of_mem distinct h.1)).2 h
        simp [delegate, members]
      · simp [delegate]

/-- Descendants come in source order. -/
theorem widenedTo_sublist (f : Field) : (j.widenedTo m f).Sublist j.schema.models := by
  unfold widenedTo
  split
  next => exact List.nil_sublist _
  next =>
    split
    next target _ =>
      split
      next => exact List.filter_sublist
      next => exact List.nil_sublist _
    next => exact List.nil_sublist _

/-! ## §2. The block of a model -/

theorem flatMap_widenings {γ : Type} (step : Field → Model → List γ) :
    (j.widenings m).flatMap (fun pair => step pair.1 pair.2) =
      m.fields.flatMap fun f => (j.widenedTo m f).flatMap (step f) := by
  unfold widenings
  rw [List.flatMap_assoc]
  simp only [List.flatMap_map]

theorem emits_logical (logical : j.mode = .logical) (m : Model) (f : Field) :
    j.emits m f = true := by
  unfold emits
  rw [logical]

theorem filter_emits_logical (logical : j.mode = .logical) :
    m.fields.filter (j.emits m) = m.fields := by
  rw [List.filter_eq_self]
  intro f _
  exact emits_logical logical m f

/-- In logical mode a block starts with all fields of its model. -/
theorem signatures_ownBlock {b : Target.ModelBlock} (logical : j.mode = .logical)
    (h : j.ownBlock m = .ok b) :
    b.signatures.map some = m.fields.map fun f => f.signatureAs? f.name := by
  have compiled := (ownBlock_eq_ok h).2
  rw [filter_emits_logical logical] at compiled
  unfold Target.ModelBlock.signatures
  rw [List.map_map]
  exact signatures_of_forall₂ (mapM_ok_iff.1 compiled)

theorem signatures_logical {memory : Memory} {block : Target.ModelBlock}
    (logical : j.mode = .logical)
    (h : (j.compileModel m).answer memory.shorten = .ok block) :
    block.signatures.map some = (m.fields.map fun f => f.signatureAs? f.name) ++
      m.fields.flatMap fun f =>
        (j.widenedTo m f).flatMap (j.widenedSignatures memory.identifier m f) := by
  obtain ⟨start, own, rest⟩ := compileModel_eq_ok h
  obtain ⟨widened, ok, rfl⟩ := completeBlock_logical logical rest
  have identifiers : memory.identifier = fun name => Identifier.ofShort (memory.shorten name) := by
    funext name
    exact memory.identifier_eq name
  rw [signatures_nameRelations, signatures_widen ok, signatures_ownBlock logical own,
    identifiers, flatMap_widenings]

/-- **Widening is exact.**  The block of a concrete model holds, by name and type, all fields of
    the model in order, and then, for each field in order and each model it is widened for in
    source order, the relation to that model and the copies of its keys.  A field is widened for
    the concrete models below the delegate it points to, unless a delegate stores it. -/
theorem logical_widening_exact {d : Document} {j : Job} {memory memory' : Memory}
    {out : Target.Schema} (resolved : Schema.ofDocument d = .ok j.schema)
    (logical : j.mode = .logical) (built : j.build memory = (.ok out, memory'))
    {m : Model} (hm : m ∈ j.concreteModels) :
    (∃ block, out.findModel? m.name = some block ∧
      block.signatures.map some = (m.fields.map fun f => f.signatureAs? f.name) ++
        m.fields.flatMap fun f =>
          (j.widenedTo m f).flatMap (j.widenedSignatures memory'.identifier m f)) ∧
    ∀ f ∈ m.fields, (j.widenedTo m f).Sublist j.schema.models ∧
      ∀ concrete, concrete ∈ j.widenedTo m f ↔ j.schema.storingDelegate? m f = none ∧
        ∃ target, j.schema.relationTarget? f = some target ∧ target.isDelegate = true ∧
          concrete ∈ j.schema.models ∧ concrete.isAbstract = false ∧
          j.schema.Below concrete.name target.name := by
  have distinct := Schema.modelNames_nodup_of_ofDocument resolved
  obtain ⟨known, concrete⟩ := mem_concreteModels.1 hm
  obtain ⟨block, found, ok⟩ := exists_block built distinct known concrete
  refine ⟨⟨block, found, signatures_logical logical ok⟩, ?_⟩
  intro f _
  exact ⟨widenedTo_sublist f, mem_widenedTo distinct f⟩

/-- The argument that gives the keys of a relation, or what they refer to. -/
def keyList (param key : String) : AttributeArg :=
  { name := some param, value := .array [.ref key] }

/-- Owners have animals, visits have an animal as patient, and dogs are animals. -/
def clinic : Document where
  declarations := [
    .model {
      name := "Owner"
      fields := [
        { name := "id", type := { scalar := some "Int" }, attributes := [{ name := "@id" }] },
        { name := "pets", type := { reference := some "Animal", array := true } }] },
    .model {
      name := "Animal"
      isDelegate := true
      fields := [
        { name := "id", type := { scalar := some "Int" }, attributes := [{ name := "@id" }] },
        { name := "ownerId", type := { scalar := some "Int" } },
        { name := "owner"
          type := { reference := some "Owner" }
          attributes := [
            { name := "@relation"
              args := [keyList "fields" "ownerId", keyList "references" "id"] }] }] },
    .model { name := "Dog", superTypes := ["Animal"] },
    .model {
      name := "Visit"
      fields := [
        { name := "id", type := { scalar := some "Int" }, attributes := [{ name := "@id" }] },
        { name := "patientId", type := { scalar := some "Int" } },
        { name := "patient"
          type := { reference := some "Animal" }
          attributes := [
            { name := "@relation"
              args := [keyList "fields" "patientId", keyList "references" "id"] }] }] }]

/-- In the clinic the patient of a visit is widened for the dogs, together with its key. -/
theorem logical_widening_exact_clinic :
    ∃ (j : Job) (memory' : Memory) (out : Target.Schema),
      Schema.ofDocument clinic = .ok j.schema ∧ j.mode = .logical ∧
      j.build (Memory.ofLength Identifier.standardLength) = (.ok out, memory') ∧
      ∃ visit ∈ j.concreteModels, visit.name = "Visit" ∧
        ∃ block, out.findModel? visit.name = some block ∧
          (block.signatures.map some = (visit.fields.map fun f => f.signatureAs? f.name) ++
            visit.fields.flatMap fun f =>
              (j.widenedTo visit f).flatMap (j.widenedSignatures memory'.identifier visit f)) ∧
          block.fieldNames = ["id", "patientId", "patient", "delegate_aux_Visit_patient_Dog",
            "delegate_aux_Visit_patientId_Dog"] := by
  have builds : clinic.buildsTo .logical (fun j out =>
      (j.concreteModels.any fun visit => visit.name == "Visit") &&
      (out.findModel? "Visit").all fun block =>
        block.fieldNames == ["id", "patientId", "patient", "delegate_aux_Visit_patient_Dog",
          "delegate_aux_Visit_patientId_Dog"]) = true := by
    decide +kernel
  obtain ⟨j, out, memory', resolved, logical, built, test⟩ := Document.exists_build builds
  simp only [Bool.and_eq_true, List.any_eq_true, beq_iff_eq, Option.all_eq_true] at test
  obtain ⟨⟨visit, hvisit, isVisit⟩, names⟩ := test
  obtain ⟨⟨block, found, signatures⟩, _⟩ :=
    logical_widening_exact resolved logical built hvisit
  exact ⟨j, memory', out, resolved, logical, built, visit, hvisit, isVisit, block, found,
    signatures, names block (isVisit ▸ found)⟩

end Job

end DelegateSchema
