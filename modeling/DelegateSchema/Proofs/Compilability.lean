/-
  DelegateSchema.Proofs.Compilability — which schemas compile, in which mode.

  Whether a build succeeds is a matter of the declarations alone: the memory of identifiers answers
  every question, so no pass fails for what it is told.  `CompilesDeclaration` says what each
  declaration needs, and `builds_iff` that a build succeeds exactly when every declaration has it.

  The two modes need different things.  Physical mode passes over inherited columns and their
  defaults, has no stand-ins and takes no relation over; what it does compile, logical mode compiles
  too.  So a schema that compiles in logical mode compiles in physical mode.

  Main results:
    * `exists_toTargetField_iff` — what a field needs,
    * `exists_widen_iff` — what widening needs, once the fields compile,
    * `builds_iff` — what a schema needs,
    * `physical_builds_of_logical` — logical mode needs at least as much.
-/
import DelegateSchema.Proofs.DistinctNames

namespace DelegateSchema

open Identifier (Memory)

/-- What comes after a step and cannot fail does not decide. -/
theorem exists_bind_ok_iff_left {ε α β : Type} {x : Except ε α} {f : α → Except ε β}
    (total : ∀ a, ∃ b, f a = .ok b) : (∃ b, x >>= f = .ok b) ↔ ∃ a, x = .ok a := by
  rw [exists_bind_ok_iff (P := True) fun a => iff_of_true (total a) trivial, and_true]

/-- A fold succeeds when every step does, if a step succeeds for its element or not at all. -/
theorem exists_foldlM_ok_iff {ε α β : Type} {f : β → α → Except ε β} {P : α → Prop} {xs : List α}
    (step : ∀ x ∈ xs, ∀ b, (∃ b', f b x = .ok b') ↔ P x) (b : β) :
    (∃ b', xs.foldlM f b = .ok b') ↔ ∀ x ∈ xs, P x := by
  induction xs generalizing b with
  | nil => exact iff_of_true ⟨b, rfl⟩ (by simp)
  | cons x xs ih =>
    have later := ih fun y hy => step y (List.mem_cons_of_mem _ hy)
    rw [List.foldlM_cons, List.forall_mem_cons, exists_bind_ok_iff later,
      step x List.mem_cons_self b]

/-- If the relation of a field owns no keys, its attribute can be written in the target
    language. -/
def Field.CanBeTakenOver (f : Field) : Prop :=
  ∀ relation, f.attribute? "@relation" = some relation → relation.arg? "fields" = none →
    ∃ a, relation.toTarget = .ok a

namespace Job

variable {j : Job} {m : Model} {shortOf : String → String}

/-! ## §1. What declarations need -/

/-- What a model needs to compile. -/
structure CompilesModel (j : Job) (m : Model) : Prop where
  fields : ∀ f ∈ m.fields, j.emits m f = true → ∃ g, j.toTargetField m f = .ok g
  attributes : ∃ attributes, targetAttributes m.attributes = .ok attributes
  /-- A relation that is widened repeats its attribute, unless there are keys to copy. -/
  relations : j.mode = .logical → ∀ f ∈ m.fields, j.widenedTo m f ≠ [] → f.CanBeTakenOver

/-- What a declaration needs to compile. -/
def CompilesDeclaration (j : Job) : Declaration → Prop
  | .datasource b => ∃ block, b.toTarget = .ok block
  | .generator b => ∃ block, j.toTargetGenerator b = .ok block
  | .enum e => ∃ block, e.toTarget = .ok block
  | .model m => m.isAbstract = false → j.CompilesModel m

/-! ## §2. Fields and the block a model starts with -/

/-- **A field compiles** when its type has a name, every usage that is kept can be written, and
    there is a stand-in where one is needed. -/
theorem exists_toTargetField_iff {f : Field} :
    (∃ g, j.toTargetField m f = .ok g) ↔ f.type.targetName?.isSome = true ∧
      (∀ a ∈ f.attributes, j.keepsAttribute m f a = true → ∃ t, a.toTarget = .ok t) ∧
      ∃ standIns, j.standIns f = .ok standIns := by
  unfold toTargetField
  cases f.type.targetName? with
  | none =>
    refine iff_of_false ?_ (by simp)
    intro ⟨g, h⟩
    cases h
  | some typeName =>
    dsimp only
    rw [exists_bind_ok_iff (P := ∃ standIns, j.standIns f = .ok standIns), exists_mapM_ok_iff]
    · simp only [List.mem_filter, and_imp, Option.isSome_some, true_and]
    · intro attributes
      exact exists_bind_ok_iff_left fun standIns => ⟨_, rfl⟩

theorem exists_ownBlock_iff :
    (∃ b, j.ownBlock m = .ok b) ↔
      (∀ f ∈ m.fields, j.emits m f = true → ∃ g, j.toTargetField m f = .ok g) ∧
      ∃ attributes, targetAttributes m.attributes = .ok attributes := by
  unfold ownBlock
  rw [exists_bind_ok_iff (P := ∃ attributes, targetAttributes m.attributes = .ok attributes),
    exists_mapM_ok_iff]
  · simp only [List.mem_filter, and_imp]
  · intro fields
    exact exists_bind_ok_iff_left fun attributes => ⟨_, rfl⟩

/-! ## §3. Widening -/

theorem exists_copyKey_iff {concrete : Model} {key : Field} {b : Target.ModelBlock} :
    (∃ r, (j.copyKey m concrete key b).answer shortOf = .ok r) ↔
      ∃ g, j.toTargetField m key = .ok g := by
  unfold copyKey
  rw [Compile.answer_bind, Compile.answer_ofExcept]
  exact exists_bind_ok_iff_left fun field => ⟨_, rfl⟩

theorem exists_copyKeys_iff {concrete : Model} {keys : List Field} {b : Target.ModelBlock} :
    (∃ r, (j.copyKeys m concrete keys b).answer shortOf = .ok r) ↔
      ∀ key ∈ keys, ∃ g, j.toTargetField m key = .ok g := by
  induction keys generalizing b with
  | nil => exact iff_of_true ⟨_, rfl⟩ (by simp)
  | cons key keys ih =>
    unfold copyKeys
    rw [Compile.answer_bind, List.forall_mem_cons, exists_bind_ok_iff, exists_copyKey_iff]
    intro first
    rw [← ih (b := first.2), Compile.answer_bind]
    exact exists_bind_ok_iff_left fun rest => ⟨_, rfl⟩

/-- Where the fields of the model compile, so do the copied keys, which are among them; what is left
    is the relation attribute. -/
theorem exists_widenedRelation_iff (compiled : ∀ f ∈ m.fields, ∃ g, j.toTargetField m f = .ok g)
    {f : Field} {concrete : Model} {name : String} {b : Target.ModelBlock} :
    (∃ r, (j.widenedRelation m f concrete name b).answer shortOf = .ok r) ↔ f.CanBeTakenOver := by
  unfold widenedRelation Field.CanBeTakenOver
  cases f.attribute? "@relation" with
  | none => exact iff_of_true ⟨_, rfl⟩ (by simp)
  | some relation =>
    dsimp only
    split
    next keyless =>
      rw [Compile.answer_bind, Compile.answer_ofExcept, exists_bind_ok_iff_left]
      · simp [Option.isNone_iff_eq_none.1 keyless]
      · exact fun a => ⟨_, rfl⟩
    next owning =>
      refine iff_of_true ?_ ?_
      · have copies : ∀ key ∈ (j.schema.keyPairs m f).map (·.1),
            ∃ g, j.toTargetField m key = .ok g := by
          intro key hkey
          obtain ⟨pair, hpair, rfl⟩ := List.mem_map.1 hkey
          exact compiled pair.1 (mem_fields_of_keyPairs hpair)
        rw [Compile.answer_bind]
        exact (exists_bind_ok_iff_left fun r => ⟨_, rfl⟩).2 (exists_copyKeys_iff.2 copies)
      · intro written same keyless
        cases same
        exact absurd (Option.isNone_iff_eq_none.2 keyless) owning

theorem exists_widenFor_iff (compiled : ∀ f ∈ m.fields, ∃ g, j.toTargetField m f = .ok g)
    {f : Field} {concrete : Model} {b : Target.ModelBlock} :
    (∃ b', (j.widenFor m f b concrete).answer shortOf = .ok b') ↔ f.CanBeTakenOver := by
  unfold widenFor
  rw [Compile.answer_bind, Compile.answer_identifier]
  show (∃ b', Compile.answer shortOf (_ >>= _) = .ok b') ↔ _
  rw [Compile.answer_bind, exists_bind_ok_iff_left, exists_widenedRelation_iff compiled]
  exact fun r => ⟨_, rfl⟩

/-- **What widening needs**: every relation that is widened has keys or can be taken over. -/
theorem exists_widen_iff (compiled : ∀ f ∈ m.fields, ∃ g, j.toTargetField m f = .ok g)
    {b : Target.ModelBlock} :
    (∃ b', (j.widen m b).answer shortOf = .ok b') ↔
      ∀ f ∈ m.fields, j.widenedTo m f ≠ [] → f.CanBeTakenOver := by
  rw [answer_widen, exists_foldlM_ok_iff (P := fun step => step.1.CanBeTakenOver)
    fun step _ b => exists_widenFor_iff compiled]
  unfold widenings
  simp only [List.mem_flatMap, List.mem_map]
  constructor
  · intro all f hf widened
    obtain ⟨concrete, hconcrete⟩ := List.exists_mem_of_ne_nil _ widened
    exact all (f, concrete) ⟨f, hf, concrete, hconcrete, rfl⟩
  · intro all step ⟨f, hf, concrete, hconcrete, same⟩
    rw [← same]
    exact all f hf (List.ne_nil_of_mem hconcrete)

/-! ## §4. Whole builds -/

/-- **A model compiles when it has what it needs**, whatever the answers to its questions. -/
theorem exists_compileModel_iff :
    (∃ b, (j.compileModel m).answer shortOf = .ok b) ↔ j.CompilesModel m := by
  have stages : (∃ b, (j.compileModel m).answer shortOf = .ok b) ↔
      ∃ start, j.ownBlock m = .ok start ∧
        ∃ b, (j.completeBlock m start).answer shortOf = .ok b := by
    unfold compileModel
    rw [Compile.answer_bind, Compile.answer_ofExcept]
    simp only [bind_ok_iff]
    rw [exists_comm]
    simp only [exists_and_left]
  rw [stages]
  cases mode : j.mode with
  | physical =>
    have completes : ∀ start, ∃ b, (j.completeBlock m start).answer shortOf = .ok b := by
      intro start
      unfold completeBlock
      rw [mode]
      exact ⟨_, by simp only [Compile.answer_bind, Compile.answer_lift]; rfl⟩
    simp only [completes, and_true, exists_ownBlock_iff]
    constructor
    · intro ⟨fields, attributes⟩
      exact ⟨fields, attributes, fun logical => absurd (mode.symm.trans logical) (by simp)⟩
    · intro needs
      exact ⟨needs.fields, needs.attributes⟩
  | logical =>
    have completes : ∀ start, (∃ b, (j.completeBlock m start).answer shortOf = .ok b) ↔
        ∃ b, (j.widen m start).answer shortOf = .ok b := by
      intro start
      unfold completeBlock
      rw [mode]
      simp only [Compile.answer_bind, Compile.answer_lift]
      exact exists_bind_ok_iff_left fun b => ⟨_, rfl⟩
    simp only [completes]
    -- all fields are emitted, so the block a model starts with shows that they compile
    have emitted : ∀ f, j.emits m f = true := emits_logical mode m
    constructor
    · intro ⟨start, own, widens⟩
      obtain ⟨fields, attributes⟩ := exists_ownBlock_iff.1 ⟨start, own⟩
      exact ⟨fields, attributes, fun _ =>
        (exists_widen_iff fun f hf => fields f hf (emitted f)).1 widens⟩
    · intro needs
      obtain ⟨start, own⟩ := exists_ownBlock_iff.2 ⟨needs.fields, needs.attributes⟩
      exact ⟨start, own, (exists_widen_iff fun f hf => needs.fields f hf (emitted f)).2
        (needs.relations mode)⟩

theorem exists_compileDeclaration_iff {decl : Declaration} :
    (∃ block, (j.compileDeclaration decl).answer shortOf = .ok block) ↔
      j.CompilesDeclaration decl := by
  cases decl with
  | datasource b | generator b | enum b =>
    unfold compileDeclaration CompilesDeclaration
    rw [Compile.answer_bind, Compile.answer_ofExcept]
    exact exists_bind_ok_iff_left fun block => ⟨_, rfl⟩
  | model m =>
    unfold compileDeclaration CompilesDeclaration
    cases abstract : m.isAbstract with
    | true => simp [abstract]
    | false =>
      simp only [abstract, Bool.false_eq_true, if_false, true_implies]
      rw [Compile.answer_bind, exists_bind_ok_iff_left, exists_compileModel_iff]
      exact fun block => ⟨_, rfl⟩

/-- **A schema compiles when every declaration has what it needs**, whatever the memory of
    identifiers. -/
theorem builds_iff (j : Job) (memory : Memory) :
    (∃ out, (j.build memory).1 = .ok out) ↔
      ∀ decl ∈ j.schema.declarations, j.CompilesDeclaration decl := by
  have answers : (j.build memory).1 = j.compile.answer (j.build memory).2.shorten :=
    Identifier.Asking.run_fst j.compile.run memory
  rw [answers]
  unfold compile
  rw [Compile.answer_bind, Compile.answer_mapM, exists_bind_ok_iff_left, exists_mapM_ok_iff]
  · simp only [exists_compileDeclaration_iff]
  · exact fun blocks => ⟨_, rfl⟩

/-! ## §5. From logical to physical mode -/

/-- A usage that physical mode keeps is kept in logical mode, where no default is dropped because a
    delegate has it. -/
theorem keepsAttribute_logical {f : Field} {a : Attribute}
    (kept : ({ j with mode := .physical } : Job).keepsAttribute m f a = true) :
    ({ j with mode := .logical } : Job).keepsAttribute m f a = true := by
  have keeps : ({ j with mode := .logical } : Job).dropsDefault m f = false := rfl
  unfold keepsAttribute at kept ⊢
  rw [keeps, Bool.false_and, Bool.not_false, Bool.and_true]
  exact (Bool.and_eq_true _ _ ▸ kept).1

/-- A field that compiles in logical mode compiles in physical mode: fewer usages are kept, and
    there is no stand-in. -/
theorem exists_toTargetField_physical {f : Field}
    (logical : ∃ g, ({ j with mode := .logical } : Job).toTargetField m f = .ok g) :
    ∃ g, ({ j with mode := .physical } : Job).toTargetField m f = .ok g := by
  obtain ⟨typed, usages, _⟩ := exists_toTargetField_iff.1 logical
  refine exists_toTargetField_iff.2 ⟨typed, ?_, ⟨[], rfl⟩⟩
  intro a ha kept
  exact usages a ha (keepsAttribute_logical kept)

theorem CompilesModel.physical (needs : ({ j with mode := .logical } : Job).CompilesModel m) :
    ({ j with mode := .physical } : Job).CompilesModel m where
  fields f hf _ := exists_toTargetField_physical (needs.fields f hf rfl)
  attributes := needs.attributes
  relations logical := absurd logical (by simp)

/-- What a declaration needs in physical mode, it needs in logical mode; only models ask for the
    mode at all. -/
theorem CompilesDeclaration.physical {decl : Declaration}
    (needs : ({ j with mode := .logical } : Job).CompilesDeclaration decl) :
    ({ j with mode := .physical } : Job).CompilesDeclaration decl := by
  cases decl with
  | datasource b | generator b | enum b => exact needs
  | model m => exact fun concrete => CompilesModel.physical (needs concrete)

/-- **A schema that compiles in logical mode compiles in physical mode**, if nothing but the mode
    changes.  The memories of identifiers that the two builds start with do not matter, nor does the
    length of identifiers that they are made for. -/
theorem physical_builds_of_logical {j : Job} {memory : Memory} {out : Target.Schema}
    (built : (({ j with mode := .logical } : Job).build memory).1 = .ok out) (memory' : Memory) :
    ∃ out', (({ j with mode := .physical } : Job).build memory').1 = .ok out' := by
  have needs := (builds_iff { j with mode := .logical } memory).1 ⟨out, built⟩
  refine (builds_iff { j with mode := .physical } memory').2 ?_
  intro decl hdecl
  exact CompilesDeclaration.physical (needs decl hdecl)

/-- A default that depends on the current user. -/
def ownerDefault : Attribute :=
  { name := "@default", args := [{ name := none, value := .member (.call "auth" []) "id" }] }

/-- Videos are assets, which get their owner from the current user; a show has assets as clips. -/
def studio : Document where
  declarations := [
    .model {
      name := "Asset"
      isDelegate := true
      fields := [
        { name := "id"
          type := { scalar := some "Int" }
          attributes := [
            { name := "@id" },
            { name := "@default", args := [{ name := none, value := .call "autoincrement" [] }] }] },
        { name := "ownerId", type := { scalar := some "Int" }, attributes := [ownerDefault] },
        { name := "shows", type := { reference := some "Show", array := true } }] },
    .model { name := "Video", superTypes := ["Asset"] },
    .model {
      name := "Show"
      fields := [
        { name := "id", type := { scalar := some "Int" }, attributes := [{ name := "@id" }] },
        { name := "clips"
          type := { reference := some "Asset", array := true }
          attributes := [
            { name := "@relation"
              args := [{ name := none, value := .literal (.string "clips") }] }] }] }]

/-- The studio needs a stand-in and a widened relation in logical mode, and neither of them in
    physical mode. -/
theorem studio_builds_in_physical :
    ∃ (j : Job) (memory' : Memory) (out : Target.Schema),
      Schema.ofDocument studio = .ok j.schema ∧
      ({ j with mode := .logical } : Job).build (Memory.ofLength Identifier.standardLength) =
        (.ok out, memory') ∧
      (out.findModel? "Video").map (·.fieldNames) = some ["id", "ownerId", "shows"] ∧
      ∃ out', (({ j with mode := .physical } : Job).build
        (Memory.ofLength Identifier.standardLength)).1 = .ok out' := by
  have builds : studio.buildsTo .logical (fun _ out =>
      (out.findModel? "Video").map (·.fieldNames) == some ["id", "ownerId", "shows"]) = true := by
    decide +kernel
  obtain ⟨j, out, memory', resolved, mode, built, test⟩ := Document.exists_build builds
  have logical : ({ j with mode := .logical } : Job) = j := by rw [← mode]
  rw [← logical] at built
  exact ⟨j, memory', out, resolved, built, beq_iff_eq.1 test,
    physical_builds_of_logical (congrArg (·.1) built) _⟩

/-- The converse fails: no stand-in takes the place of a user. -/
example :
    let schema : Schema := ⟨[
      .model {
        name := "Item"
        fields := [
          { name := "owner"
            type := { reference := some "User" }
            attributes := [
              { name := "@default"
                args := [{ name := none, value := .call "auth" [], param := some "value" }]
                resolved := some ⟨"@default", true⟩ }] }] }]⟩
    let memory := Memory.ofLength Identifier.standardLength
    (Job.build { schema, mode := .logical } memory).1.toOption = none ∧
      (Job.build { schema, mode := .physical } memory).1.toOption.isSome = true := by
  decide +kernel

end Job

end DelegateSchema
