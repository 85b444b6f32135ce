/-
  DelegateSchema.Proofs.Acceptance — which documents resolve.

  A document that is not flattened resolves exactly when it is well formed: the aliases of its
  usages end, its models have distinct names, and its super types are models and run in no circle.
  The merge keeps the names of the models whose super types it is merging, and each of them is below
  the model that it is asked for; so a name asked for again is really on a circle, and a model that
  two others have as a super type is not taken for one.

  Main results:
    * `exists_resolveDeclaration_iff` — a declaration resolves when its usages do,
    * `mergeFault_of_mergeInheritance` — what a failed merge says is true of the models,
    * `resolves_iff_wellFormed` — both for whole documents.
-/
import DelegateSchema.Proofs.Aliases
import DelegateSchema.Proofs.Resolution

namespace DelegateSchema

open Relation

/-! ## §1. Declarations that resolve -/

namespace Registry

variable {r : Registry}

theorem exists_resolveAll_iff {attributes : List Attribute} :
    (∃ usages, r.resolveAll attributes = .ok usages) ↔
      ∀ a ∈ attributes, ∃ a', r.resolve a = .ok a' :=
  exists_mapM_ok_iff

/-- Fields resolve, of whatever kind they are, when the usages on them do. -/
theorem exists_resolveFields_iff {φ : Type} {fields : List φ} {usagesOf : φ → List Attribute}
    {put : φ → List Attribute → φ} :
    (∃ fields', (fields.mapM fun f => do return put f (← r.resolveAll (usagesOf f)) :
        Except ResolveError (List φ)) = .ok fields') ↔
      ∀ a ∈ fields.flatMap usagesOf, ∃ a', r.resolve a = .ok a' := by
  have one : ∀ f, (∃ f', (do return put f (← r.resolveAll (usagesOf f)) :
      Except ResolveError φ) = .ok f') ↔ ∀ a ∈ usagesOf f, ∃ a', r.resolve a = .ok a' := by
    intro f
    rw [exists_bind_ok_iff (P := True) (fun usages => by simp [pure_ok_iff]), and_true]
    exact exists_resolveAll_iff
  rw [exists_mapM_ok_iff]
  simp only [one, List.mem_flatMap]
  constructor
  · intro all a ⟨f, hf, ha⟩
    exact all f hf a ha
  · intro all f hf a ha
    exact all a ⟨f, hf, ha⟩

/-- **A declaration resolves when all usages on it do.** -/
theorem exists_resolveDeclaration_iff {decl : Declaration} :
    (∃ decl', r.resolveDeclaration decl = .ok decl') ↔
      ∀ a ∈ decl.usages, ∃ a', r.resolve a = .ok a' := by
  cases decl with
  | datasource b | generator b => simp [resolveDeclaration, Declaration.usages]
  | enum e | model e =>
    unfold resolveDeclaration Declaration.usages
    rw [List.forall_mem_append, ← exists_resolveAll_iff]
    refine exists_bind_ok_iff fun attributes => ?_
    rw [exists_bind_ok_iff (P := True) (fun fields => by simp [pure_ok_iff]), and_true]
    exact exists_resolveFields_iff

end Registry

/-! ## §2. Merges that fail -/

/-- What the fault of a merge says about the models. -/
inductive MergeFault (models : List Model) : ResolveError → Prop where
  /-- A model lists a super type that is no model. -/
  | unknown {name base : String} :
    Extends models name base → findModel? models base = none →
      MergeFault models (.unknownSuperType name base)
  /-- A model is on a circle of super types. -/
  | circle {name : String} :
    TransGen (Extends models) name name → MergeFault models (.inheritanceCycle name)

/-- **A merge fails for a reason that holds**, if the walk came to the model from models below
    it. -/
theorem mergeFault_of_mergeModel {models : List Model} {path : List String} {m : Model}
    {known : m ∈ models} {fault : ResolveError}
    (h : mergeModel models path m known = .error fault)
    (below : ∀ name ∈ path, TransGen (Extends models) name m.name) : MergeFault models fault := by
  -- while the super types of a model are merged, the model itself is on the path
  refine mergeModel.induct models
    (fun path m known => (∀ name ∈ path, TransGen (Extends models) name m.name) →
      ∀ fault, mergeModel models path m known = .error fault → MergeFault models fault)
    (fun own path sofar bases => own ∈ models → (∀ base ∈ bases, base ∈ own.superTypes) →
      (∀ name ∈ path, ReflTransGen (Extends models) name own.name) →
      ∀ fault, mergeBases models own path sofar bases = .error fault → MergeFault models fault)
    ?_ ?_ ?_ ?_ ?_ path m known below fault h
  · intro path m known repeated below fault h
    rw [mergeModel, dif_pos repeated] at h
    cases h
    exact MergeFault.circle (below m.name repeated)
  · intro path m known new ih below fault h
    rw [mergeModel, dif_neg new] at h
    rcases bind_error h with bases | ⟨_, _, h⟩
    · refine ih known (fun _ listed => listed) ?_ fault bases
      intro name hname
      rcases List.mem_cons.1 hname with rfl | earlier
      · exact ReflTransGen.refl
      · exact (below name earlier).to_reflTransGen
    · cases h
  · intro own path sofar _ _ _ fault h
    rw [mergeBases] at h
    cases h
  · intro own path sofar base bases missing known listed _ fault h
    rw [mergeBases] at h
    split at h
    next =>
      cases h
      exact MergeFault.unknown ⟨own, known, rfl, listed base List.mem_cons_self⟩ missing
    next found =>
      rw [missing] at found
      cases found
  · intro own path sofar base bases baseModel found ih_base ih_rest known listed below fault h
    have step : Extends models own.name base := ⟨own, known, rfl, listed base List.mem_cons_self⟩
    rw [mergeBases] at h
    split at h
    next missing =>
      rw [found] at missing
      cases missing
    next baseModel' found' =>
      rw [found] at found'
      cases found'
      rcases bind_error h with first | ⟨merged, _, rest⟩
      · refine ih_base ?_ fault first
        intro name hname
        rw [name_of_findModel? found]
        exact TransGen.tail' (below name hname) step
      · exact ih_rest merged known (fun b hb => listed b (List.mem_cons_of_mem _ hb)) below fault
          rest

/-- **So does the merge of a document.**  It asks only for models that are declared, so it never
    fails for one that is not. -/
theorem mergeFault_of_mergeInheritance {decls : List Declaration} {fault : ResolveError}
    (distinct : ((modelsOf decls).map (·.name)).Nodup)
    (h : mergeInheritance decls = .error fault) : MergeFault (modelsOf decls) fault := by
  rw [mergeInheritance_eq distinct] at h
  obtain ⟨decl, member, fails⟩ := exists_of_mapM_error h
  cases decl with
  | model m =>
    have found := findModel?_of_mem distinct (List.mem_filterMap.2 ⟨_, member, rfl⟩ : m ∈ _)
    rw [mergeDeclaration_of_found found, map_eq_pure_bind] at fails
    rcases bind_error fails with fails | ⟨_, _, fails⟩
    · exact mergeFault_of_mergeModel fails (by simp)
    · cases fails
  | enum e | datasource e | generator e => cases fails

/-! ## §3. Documents -/

namespace Document

/-- Every usage is of an attribute that is not declared, or its aliases lead to one that is no
    alias. -/
def AliasesEnd (d : Document) : Prop :=
  ∀ a ∈ d.usages, d.registry.get? a.name = none ∨ ∃ decl, d.registry.LeadsTo a.name decl

/-- What a document that is not flattened has to satisfy. -/
structure WellFormed (d : Document) : Prop where
  aliasesEnd : d.AliasesEnd
  distinct : d.modelNames.Nodup
  superTypesKnown : ∀ name base, d.Extends name base → base ∈ d.modelNames
  acyclic : ∀ name, ¬ TransGen d.Extends name name

variable {d : Document}

theorem exists_resolved_iff :
    (∃ decls, d.declarations.mapM d.registry.resolveDeclaration = .ok decls) ↔ d.AliasesEnd := by
  rw [exists_mapM_ok_iff]
  simp only [Registry.exists_resolveDeclaration_iff, Registry.exists_resolve_iff]
  unfold AliasesEnd usages
  simp only [List.mem_flatMap]
  constructor
  · intro all a ⟨decl, hdecl, ha⟩
    exact all decl hdecl a ha
  · intro all decl hdecl a ha
    exact all a ⟨decl, hdecl, ha⟩

section Resolved

variable {decls : List Declaration}

theorem modelNames_of_resolved
    (h : d.declarations.mapM d.registry.resolveDeclaration = .ok decls) :
    (modelsOf decls).map (·.name) = d.modelNames :=
  Registry.modelNames_of_resolves (Registry.resolvesModels (mapM_ok_iff.1 h))

/-- Resolution leaves the super types as they are. -/
theorem extends_of_resolved (h : d.declarations.mapM d.registry.resolveDeclaration = .ok decls)
    {name base : String} (ext : DelegateSchema.Extends (modelsOf decls) name base) :
    d.Extends name base := by
  obtain ⟨m', hm', rfl, listed⟩ := ext
  obtain ⟨m, hm, resolves⟩ :=
    forall₂_exists_left (Registry.resolvesModels (mapM_ok_iff.1 h)) hm'
  rw [resolves.superTypes_eq] at listed
  exact ⟨m, hm, resolves.name_eq.symm, listed⟩

/-- Once its usages are resolved, the merge decides about a document. -/
theorem ofDocument_of_resolved
    (h : d.declarations.mapM d.registry.resolveDeclaration = .ok decls)
    (distinct : d.modelNames.Nodup) (plain : d.flattened = false) :
    Schema.ofDocument d = (do return ⟨← mergeInheritance decls⟩) := by
  have checked : Schema.checkNames [] (modelsOf decls) = .ok () := by
    rw [Schema.checkNames_ok_iff, modelNames_of_resolved h]
    exact ⟨distinct, by simp⟩
  unfold Schema.ofDocument
  show (d.declarations.mapM d.registry.resolveDeclaration >>= _) = _
  rw [h, plain]
  show (Schema.checkNames [] (modelsOf decls) >>= _) = _
  rw [checked]
  rfl

end Resolved

/-- A document whose usages resolve and whose models have distinct names can fail only for its
    super types. -/
theorem superTypes_of_error (plain : d.flattened = false) (aliasesEnd : d.AliasesEnd)
    (distinct : d.modelNames.Nodup) {fault : ResolveError}
    (h : Schema.ofDocument d = .error fault) :
    (∃ name base, fault = .unknownSuperType name base ∧ d.Extends name base ∧
        base ∉ d.modelNames) ∨
      ∃ name, fault = .inheritanceCycle name ∧ TransGen d.Extends name name := by
  obtain ⟨decls, resolved⟩ := exists_resolved_iff.2 aliasesEnd
  rw [ofDocument_of_resolved resolved distinct plain] at h
  rcases bind_error h with merge | ⟨_, _, h⟩
  · rw [← modelNames_of_resolved resolved] at distinct
    cases mergeFault_of_mergeInheritance distinct merge with
    | @unknown name base ext missing =>
      refine Or.inl ⟨name, base, rfl, extends_of_resolved resolved ext, ?_⟩
      rw [← modelNames_of_resolved resolved]
      intro declared
      obtain ⟨m, hm, isBase⟩ := List.mem_map.1 declared
      exact List.find?_eq_none.1 missing m hm (by simpa using isBase)
    | @circle name around =>
      exact Or.inr ⟨name, rfl, TransGen.mono (fun _ _ => extends_of_resolved resolved) _ _ around⟩
  · cases h

/-- A document that resolves is well formed. -/
theorem wellFormed_of_ofDocument {s : Schema} (h : Schema.ofDocument d = .ok s)
    (plain : d.flattened = false) : d.WellFormed := by
  obtain ⟨decls, resolved, distinct, _⟩ := Schema.ofDocument_eq_ok_iff.1 h
  have resolved := mapM_ok_iff.2 resolved
  obtain ⟨own, _, merges⟩ := Schema.merges_of_ofDocument h plain
  refine ⟨exists_resolved_iff.1 ⟨decls, resolved⟩, ?_, ?_, ?_⟩
  · rw [← modelNames_of_resolved resolved]
    exact distinct
  · intro name base ⟨m, hm, _, listed⟩
    obtain ⟨u, bases, resolves, found, _⟩ := Schema.exists_merged h plain hm
    rw [← resolves.superTypes_eq] at listed
    obtain ⟨b, _, isModel⟩ := forall₂_exists_right found listed
    rw [← Schema.modelNames_eq_declared h plain]
    exact Schema.name_mem_of_model? isModel
  · intro name circle
    exact merges.not_below_self name
      (TransGen.mono (fun _ _ => Schema.lists_of_extends h plain) _ _ circle)

/-- **Resolution accepts exactly the well-formed documents.**  If the super types of a document
    are all that is wrong with it, then the fault is a super type that really is no model, or a
    model that really is on a circle.  Where names are distinct, the merge finds every model that it
    is asked for, so it never fails for a model that is not declared or is declared twice. -/
theorem resolves_iff_wellFormed (plain : d.flattened = false) :
    ((∃ s, Schema.ofDocument d = .ok s) ↔ d.WellFormed) ∧
    (d.AliasesEnd → d.modelNames.Nodup → ∀ fault, Schema.ofDocument d = .error fault →
      (∃ name base, fault = .unknownSuperType name base ∧ d.Extends name base ∧
        base ∉ d.modelNames) ∨
      ∃ name, fault = .inheritanceCycle name ∧ TransGen d.Extends name name) ∧
    ∀ decls : List Declaration, ((modelsOf decls).map (·.name)).Nodup → ∀ name,
      mergeInheritance decls ≠ .error (.unknownModel name) ∧
      mergeInheritance decls ≠ .error (.duplicateModel name) := by
  refine ⟨⟨fun ⟨s, h⟩ => wellFormed_of_ofDocument h plain, ?_⟩, ?_, ?_⟩
  · intro good
    cases result : Schema.ofDocument d with
    | ok s => exact ⟨s, rfl⟩
    | error fault =>
      rcases superTypes_of_error plain good.aliasesEnd good.distinct result with
        ⟨name, base, _, ext, undeclared⟩ | ⟨name, _, around⟩
      · exact absurd (good.superTypesKnown name base ext) undeclared
      · exact absurd around (good.acyclic name)
  · intro aliasesEnd distinct fault h
    exact superTypes_of_error plain aliasesEnd distinct h
  · intro decls distinct name
    refine ⟨?_, ?_⟩
    · intro h
      cases mergeFault_of_mergeInheritance distinct h
    · intro h
      cases mergeFault_of_mergeInheritance distinct h

/-- A puppy is a dog, dogs are animals, and animals are dogs; their key is written by an alias of
    an alias. -/
def circular : Document where
  attributes := [
    { name := "@key", aliasOf := some "@primary" },
    { name := "@primary", aliasOf := some "@id" }]
  declarations := [
    .model { name := "Puppy", superTypes := ["Dog"] },
    .model { name := "Dog", superTypes := ["Animal"] },
    .model {
      name := "Animal"
      fields := [
        { name := "id", type := { scalar := some "Int" },
          attributes := [{ name := "@key" }, { name := "@unheard" }] }]
      superTypes := ["Dog"] }]

/-- A puppy is a dog and a pet, and both are animals. -/
def diamond : Document where
  declarations := [
    .model { name := "Puppy", superTypes := ["Dog", "Pet"] },
    .model { name := "Dog", superTypes := ["Animal"] },
    .model { name := "Pet", superTypes := ["Animal"] },
    .model { name := "Animal" }]

/-- On the circle the merge starts from the puppy, but the fault names the dog, which is on the
    circle.  In the diamond it comes to the animal twice, and that is no fault. -/
theorem circle_refused_diamond_accepted :
    (circular.AliasesEnd ∧ circular.modelNames.Nodup ∧
      Schema.ofDocument circular = .error (.inheritanceCycle "Dog") ∧
      TransGen circular.Extends "Dog" "Dog" ∧ ¬ circular.WellFormed ∧
      ∀ name, mergeInheritance circular.declarations ≠ .error (.unknownModel name)) ∧
    (∃ s, Schema.ofDocument diamond = .ok s) ∧ diamond.WellFormed := by
  obtain ⟨accepts, faults, merge⟩ := resolves_iff_wellFormed (d := circular) rfl
  have aliasesEnd : circular.AliasesEnd := by
    have resolves : (circular.declarations.mapM
        circular.registry.resolveDeclaration).toOption.isSome = true := by decide +kernel
    obtain ⟨decls, resolved⟩ := Option.isSome_iff_exists.1 resolves
    exact exists_resolved_iff.1 ⟨decls, eq_ok_of_toOption resolved⟩
  have distinct : circular.modelNames.Nodup := by decide
  have fails : Schema.ofDocument circular = .error (.inheritanceCycle "Dog") := by
    have named : (match Schema.ofDocument circular with
        | .error fault => decide (fault = .inheritanceCycle "Dog")
        | .ok _ => false) = true := by decide +kernel
    cases result : Schema.ofDocument circular with
    | ok s =>
      rw [result] at named
      cases named
    | error fault =>
      rw [result] at named
      rw [of_decide_eq_true named]
  refine ⟨⟨aliasesEnd, distinct, fails, ?_, ?_, ?_⟩, ?_⟩
  · rcases faults aliasesEnd distinct _ fails with ⟨_, _, other, _⟩ | ⟨name, same, around⟩
    · cases other
    · cases same
      exact around
  · intro good
    obtain ⟨s, resolves⟩ := accepts.2 good
    rw [fails] at resolves
    cases resolves
  · intro name
    exact (merge circular.declarations distinct name).1
  · have resolves : (Schema.ofDocument diamond).toOption.isSome = true := by decide +kernel
    obtain ⟨s, resolved⟩ := Option.isSome_iff_exists.1 resolves
    have accepted : ∃ s, Schema.ofDocument diamond = .ok s := ⟨s, eq_ok_of_toOption resolved⟩
    exact ⟨accepted, (resolves_iff_wellFormed (d := diamond) rfl).1.1 accepted⟩

end Document

end DelegateSchema
