/-
  DelegateSchema.Proofs.Insertion — one declaration more.

  An enum, or a model that nothing refers to and that refers to no delegate with subtypes, can be
  put anywhere into a document.  The other blocks come out as before, the memory of identifiers
  too, and the new block stands where its declaration stands.

  There is one way in which a model can be noticed that does not look like one.  A mark that says
  where a field was inherited from need not name a model, so the first delegate of that name
  changes what it means: `ghost_changes_dog`.

  Main results:
    * `Schema.ofDocument_insert` — the larger document resolves to the larger schema,
    * `Job.compileDeclaration_other` — the other declarations compile as before,
    * `Job.unrelated_insert_builds` — so only the block of the declaration is new.
-/
import DelegateSchema.Proofs.Unrelated

namespace DelegateSchema

open Identifier (Memory)

/-! ## §1. Resolution -/

/-- A declaration without super types merges to itself. -/
theorem mergeDeclaration_rootless {decls : List Declaration} {extra : Declaration}
    (distinct : ((modelsOf decls).map (·.name)).Nodup) (member : extra ∈ decls)
    (rootless : ∀ x ∈ extra.model?, x.superTypes = []) :
    mergeDeclaration (modelsOf decls) extra = .ok extra := by
  cases extra with
  | model x =>
    have found := findModel?_of_mem distinct (List.mem_filterMap.2 ⟨_, member, rfl⟩ : x ∈ _)
    rw [mergeDeclaration_of_found found, mergeModel_of_rootless (rootless x rfl) List.not_mem_nil]
    rfl
  | enum e | datasource e | generator e => rfl

theorem forall₂_append_left {α β : Type} {R : α → β → Prop} {xs ys : List α} {zs : List β}
    (h : List.Forall₂ R (xs ++ ys) zs) :
    ∃ us vs, zs = us ++ vs ∧ List.Forall₂ R xs us ∧ List.Forall₂ R ys vs := by
  have first := List.forall₂_take xs.length h
  have rest := List.forall₂_drop xs.length h
  rw [List.take_left] at first
  rw [List.drop_left] at rest
  exact ⟨_, _, (List.take_append_drop _ _).symm, first, rest⟩

theorem forall₂_singleton_left {α β : Type} {R : α → β → Prop} {x : α} {ys : List β}
    (h : List.Forall₂ R [x] ys) : ∃ y, ys = [y] ∧ R x y := by
  obtain ⟨y, rest, hxy, none, rfl⟩ := List.forall₂_cons_left_iff.1 h
  rw [List.forall₂_nil_left_iff.1 none]
  exact ⟨y, rfl, hxy⟩

theorem nodup_names_insert {before after : List Declaration} {extra : Declaration}
    (distinct : ((modelsOf (before ++ after)).map (·.name)).Nodup)
    (unnamed : ∀ x ∈ extra.model?, ∀ m ∈ modelsOf (before ++ after), x.name ≠ m.name) :
    ((modelsOf (before ++ extra :: after)).map (·.name)).Nodup := by
  rw [modelsOf_insert]
  rw [modelsOf_append] at distinct unnamed
  cases isModel : extra.model? with
  | none => exact distinct
  | some x =>
    rw [List.map_append, Option.toList_some, List.singleton_append, List.map_cons,
      List.nodup_middle, List.nodup_cons, ← List.map_append]
    refine ⟨?_, distinct⟩
    intro named
    obtain ⟨m, hm, same⟩ := List.mem_map.1 named
    exact unnamed x isModel m hm same.symm

section Stages

variable {before after : List Declaration} {extra : Declaration}
  (distinct : ((modelsOf (before ++ extra :: after)).map (·.name)).Nodup)
  (rootless : ∀ x ∈ extra.model?, x.superTypes = [])
include distinct

theorem findModel?_insert (name : String) (u : Model)
    (found : findModel? (modelsOf (before ++ after)) name = some u) :
    findModel? (modelsOf (before ++ extra :: after)) name = some u := by
  rw [← name_of_findModel? found]
  exact findModel?_of_mem distinct (mem_modelsOf_insert.2 (Or.inr (mem_of_findModel? found)))

include rootless

theorem checkSuperTypes_insert
    (ok : Schema.checkSuperTypes (modelsOf (before ++ after)) = .ok ()) :
    Schema.checkSuperTypes (modelsOf (before ++ extra :: after)) = .ok () := by
  rw [Schema.checkSuperTypes_ok_iff] at ok ⊢
  intro m hm base listed
  rcases mem_modelsOf_insert.1 hm with isExtra | isOther
  · rw [rootless m isExtra] at listed
    cases listed
  · obtain ⟨u, found⟩ := Option.isSome_iff_exists.1 (ok m isOther base listed)
    rw [findModel?_insert distinct base u found]
    rfl

theorem merges_insert {merged : List Declaration}
    (ok : List.Forall₂ (fun decl decl' => mergeDeclaration (modelsOf (before ++ after)) decl = .ok decl')
      (before ++ after) merged) :
    ∃ before' after', merged = before' ++ after' ∧ before'.length = before.length ∧
      List.Forall₂
        (fun decl decl' => mergeDeclaration (modelsOf (before ++ extra :: after)) decl = .ok decl')
        (before ++ extra :: after) (before' ++ extra :: after') := by
  have members :=
    (List.forall₂_and_left _ _).2 ⟨fun decl (h : decl ∈ before ++ after) => h, ok⟩
  have others : List.Forall₂
      (fun decl decl' => mergeDeclaration (modelsOf (before ++ extra :: after)) decl = .ok decl')
      (before ++ after) merged := by
    refine members.imp fun decl decl' ⟨member, ok⟩ => ?_
    refine mergeDeclaration_of_more (findModel?_insert distinct) (fun m hm => ?_) ok
    have known : m ∈ modelsOf (before ++ after) := List.mem_filterMap.2 ⟨decl, member, hm⟩
    unfold findModel?
    rw [List.find?_isSome]
    exact ⟨m, known, beq_self_eq_true _⟩
  have self := mergeDeclaration_rootless distinct (by simp) rootless
  obtain ⟨before', after', rfl, first, rest⟩ := forall₂_append_left others
  exact ⟨before', after', rfl, first.length_eq.symm,
    List.rel_append first (List.Forall₂.cons self rest)⟩

end Stages

/-- **The larger document resolves to the larger schema.** -/
theorem Schema.ofDocument_insert {d : Document} {s s₁ : Schema} {before after : List Declaration}
    {extra : Declaration} (split : d.declarations = before ++ after)
    (resolved : ofDocument d = .ok s)
    (alone : ofDocument { d with declarations := [extra] } = .ok s₁)
    (rootless : ∀ x ∈ extra.model?, x.superTypes = [])
    (unnamed : ∀ x ∈ extra.model?, ∀ m ∈ modelsOf d.declarations, x.name ≠ m.name) :
    ∃ before' after' extra', s = ⟨before' ++ after'⟩ ∧ s₁ = ⟨[extra']⟩ ∧
      before'.length = before.length ∧
      ofDocument { d with declarations := before ++ extra :: after } =
        .ok ⟨before' ++ extra' :: after'⟩ := by
  obtain ⟨decls, all, distinct, rest⟩ := ofDocument_eq_ok_iff.1 resolved
  obtain ⟨decls₁, all₁, distinct₁, rest₁⟩ := ofDocument_eq_ok_iff.1 alone
  have frames := frames_of_forall₂ (all.imp fun _ _ ok => frame_resolveDeclaration ok)
  rw [split] at all
  obtain ⟨b, a, rfl, hb, ha⟩ := forall₂_append_left all
  obtain ⟨e, rfl, he⟩ := forall₂_singleton_left all₁
  have all' := List.rel_append hb (List.Forall₂.cons he ha)
  have frame : e.frame = extra.frame := frame_resolveDeclaration he
  have rootless' := rootless_of_frame frame rootless
  have distinct' := nodup_names_insert distinct (unnamed_of_frames frame frames unnamed)
  -- a flattened document is checked only; in any other one the bases are merged in
  cases flattened : d.flattened with
  | true =>
    simp only [flattened, if_true] at rest rest₁
    obtain ⟨supers, rfl⟩ := rest
    obtain ⟨_, rfl⟩ := rest₁
    refine ⟨b, a, e, rfl, rfl, hb.length_eq.symm, ofDocument_eq_ok_iff.2 ⟨_, all', distinct', ?_⟩⟩
    rw [if_pos rfl]
    exact ⟨checkSuperTypes_insert distinct' rootless' supers, rfl⟩
  | false =>
    simp only [flattened, Bool.false_eq_true, if_false] at rest rest₁
    obtain ⟨merged, merges, rfl⟩ := rest
    obtain ⟨merged₁, merges₁, rfl⟩ := rest₁
    obtain ⟨before', after', rfl, length, merges'⟩ := merges_insert distinct' rootless' merges
    obtain ⟨e', rfl, he'⟩ := forall₂_singleton_left merges₁
    rw [mergeDeclaration_rootless distinct₁ List.mem_cons_self rootless'] at he'
    cases he'
    refine ⟨before', after', e, rfl, rfl, length.trans hb.length_eq.symm,
      ofDocument_eq_ok_iff.2 ⟨_, all', distinct', ?_⟩⟩
    rw [if_neg Bool.false_ne_true]
    exact ⟨_, merges', rfl⟩

theorem Schema.frame_alone {d : Document} {extra extra' : Declaration}
    (alone : ofDocument { d with declarations := [extra] } = .ok ⟨[extra']⟩) :
    extra'.frame = extra.frame := by
  simpa using frames_ofDocument alone

/-- An unrelated declaration is unrelated after resolution. -/
theorem Schema.unrelated_ofDocument {d : Document} {s : Schema} {extra extra' : Declaration}
    (resolved : ofDocument d = .ok s)
    (alone : ofDocument { d with declarations := [extra] } = .ok ⟨[extra']⟩)
    (unrelated : extra.Unrelated d.declarations) : extra'.Unrelated s.declarations := by
  refine unrelated.of_frames (frame_alone alone) (frames_ofDocument resolved) ?_ ?_
  · intro x' hx'
    refine forall_fields_ofDocument alone ?_ (fun _ _ h => h) (fun _ _ _ h => h)
      (List.mem_filterMap.2 ⟨extra', List.mem_cons_self, hx'⟩)
    intro x hx f hf
    obtain ⟨decl, hdecl, isModel⟩ := List.mem_filterMap.1 hx
    cases List.mem_singleton.1 hdecl
    exact ⟨x, isModel, f, hf, rfl⟩
  · intro m' hm'
    refine forall_fields_ofDocument resolved ?_ (fun _ _ h => h) (fun _ _ _ h => h) hm'
    intro m hm f hf
    exact ⟨m, hm, f, hf, rfl⟩

/-- Marks that resolution adds name models of the document. -/
theorem Schema.unmarked_ofDocument {d : Document} {s : Schema} {extra extra' : Declaration}
    (resolved : ofDocument d = .ok s)
    (alone : ofDocument { d with declarations := [extra] } = .ok ⟨[extra']⟩)
    (unrelated : extra.Unrelated d.declarations) (unmarked : extra.Unmarked d.declarations) :
    extra'.Unmarked s.declarations := by
  intro x' hx' delegate m' hm'
  obtain ⟨x, hx, same⟩ := Declaration.exists_model_same_frame (frame_alone alone) hx'
  obtain ⟨name, _, delegates, _⟩ := Model.eq_of_frame same
  rw [← delegates] at delegate
  rw [← name]
  refine forall_fields_ofDocument resolved (unmarked x hx delegate) (fun _ _ h => h) ?_ hm'
  intro f base hbase other marked
  obtain ⟨m, hm, rfl⟩ := List.mem_map.1 hbase
  -- a field that is merged in keeps its mark, or gets the name of the model that it comes from
  rcases Option.or_eq_some_iff.1 marked with mark | ⟨_, mark⟩
  · exact other mark
  · exact unrelated.unnamed x hx m hm (Option.some.inj mark).symm

/-! ## §2. Building with one declaration more -/

theorem Compile.run_bind_eq_ok_iff {α β : Type} {x : Compile α} {f : α → Compile β}
    {memory memory' : Memory} {b : β} :
    (x >>= f).run.run memory = (.ok b, memory') ↔
      ∃ a between, x.run.run memory = (.ok a, between) ∧
        (f a).run.run between = (.ok b, memory') := by
  show (Identifier.Asking.bind x _).run memory = _ ↔
    ∃ a between, Identifier.Asking.run x memory = _ ∧ _
  induction x generalizing memory with
  | done value =>
    cases value with
    | ok a =>
      constructor
      · intro h
        exact ⟨a, memory, rfl, h⟩
      · intro ⟨a', between, same, h⟩
        cases same
        exact h
    | error fault =>
      constructor
      · intro h
        cases h
      · intro ⟨_, _, same, _⟩
        cases same
  | ask name next ih => exact ih _

namespace Job

variable {j : Job} {memory memory' : Memory}

/-- A build in two parts. -/
theorem build_eq_ok_iff {first rest : List Declaration} {out : Target.Schema}
    (parts : j.schema.declarations = first ++ rest) :
    j.build memory = (.ok out, memory') ↔ ∃ blocks between blocks',
      (first.mapM j.compileDeclaration).run.run memory = (.ok blocks, between) ∧
      (rest.mapM j.compileDeclaration).run.run between = (.ok blocks', memory') ∧
      out = ⟨blocks.filterMap id ++ blocks'.filterMap id⟩ := by
  unfold build compile
  rw [parts, List.mapM_append, bind_assoc]
  simp only [bind_assoc, pure_bind, Compile.run_bind_eq_ok_iff, List.filterMap_append]
  constructor
  · intro ⟨blocks, between, ok, blocks', last, ok', same⟩
    cases same
    exact ⟨blocks, between, blocks', ok, ok', rfl⟩
  · intro ⟨blocks, between, blocks', ok, ok', same⟩
    exact ⟨blocks, between, ok, blocks', memory', ok', by rw [same]; rfl⟩

/-- There is one block for each heading. -/
theorem length_blocks {decls : List Declaration} {blocks : List (Option Target.Block)}
    (ok : (decls.mapM j.compileDeclaration).run.run memory = (.ok blocks, memory')) :
    (blocks.filterMap id).length = (decls.filterMap Declaration.heading?).length := by
  have answers := Identifier.Asking.run_fst (decls.mapM j.compileDeclaration).run memory
  rw [ok] at answers
  change _ = (decls.mapM j.compileDeclaration).answer _ at answers
  rw [Compile.answer_mapM] at answers
  rw [← headings_of_forall₂ (mapM_ok_iff.1 answers.symm), List.length_map]

section Inserted

variable {before after : List Declaration} {extra : Declaration}

/-- The other declarations compile as before. -/
theorem compileDeclaration_other (schema : j.schema = ⟨before ++ after⟩)
    (unrelated : extra.Unrelated (before ++ after))
    (unmarked : j.mode = .logical → extra.Unmarked (before ++ after)) {decl : Declaration}
    (hdecl : decl ∈ before ++ after) :
    ({ j with schema := ⟨before ++ extra :: after⟩ } : Job).compileDeclaration decl =
      j.compileDeclaration decl := by
  cases decl with
  | model m =>
    have hm : m ∈ modelsOf (before ++ after) := List.mem_filterMap.2 ⟨_, hdecl, rfl⟩
    have around := Schema.sameAround_insert unrelated hm
    rw [← schema] at around
    simp only [compileDeclaration]
    rw [compileModel_sameAround around]
    intro logical f _
    rw [schema]
    exact Schema.findUp?_insert unrelated (unmarked logical) hm f.name
  | enum e | datasource b | generator b => rfl

theorem unrelated_nil (unrelated : extra.Unrelated (before ++ after)) : extra.Unrelated [] := by
  refine ⟨unrelated.kind, unrelated.rootless, ?_, ?_, ?_, ?_⟩
  · intro x _ m hm
    cases hm
  · intro x _ m hm
    cases hm
  · intro x _ m hm
    cases hm
  · intro x _ f _ target htarget
    cases htarget

/-- A declaration that builds alone gives its block, if it has one, wherever it stands. -/
theorem compileDeclaration_of_alone {start final : Memory} {alone : Target.Schema}
    (builtAlone : ({ j with schema := ⟨[extra]⟩ } : Job).build start = (.ok alone, final))
    (unrelated : extra.Unrelated (before ++ after))
    (distinct : (⟨before ++ extra :: after⟩ : Schema).modelNames.Nodup) :
    ∃ block : Option Target.Block, alone.blocks = block.toList ∧
      ({ j with schema := ⟨before ++ extra :: after⟩ } : Job).compileDeclaration extra =
        pure block := by
  have single : (⟨[extra]⟩ : Schema).modelNames.Nodup := by
    unfold Schema.modelNames Schema.models modelsOf
    rw [List.filterMap_cons]
    cases extra.model? with
    | none => exact List.nodup_nil
    | some x => exact List.nodup_singleton x.name
  -- there is one result for all schemas, and the schema of the declaration alone is one of them
  obtain ⟨result, same⟩ := compileDeclaration_unrelated j extra
  have here := same before after unrelated distinct
  have there : ({ j with schema := ⟨[extra]⟩ } : Job).compileDeclaration extra =
      Compile.ofExcept result := same [] [] (unrelated_nil unrelated) single
  obtain ⟨blocks, between, rest, all, nothing, rfl⟩ :=
    (build_eq_ok_iff (List.append_nil [extra]).symm).1 builtAlone
  rw [List.mapM_cons, List.mapM_nil, there] at all
  cases nothing
  cases result with
  | error fault => cases all
  | ok block =>
    cases all
    refine ⟨block, ?_, here⟩
    cases block with
    | none => rfl
    | some block => rfl

end Inserted

/-- The schema with blocks put in at a place. -/
def insertBlocks (out : Target.Schema) (place : Nat) (blocks : List Target.Block) : Target.Schema :=
  ⟨out.blocks.take place ++ (blocks ++ out.blocks.drop place)⟩

/-- **An unrelated declaration disturbs no other block.**  Put anywhere into a document that
    resolves and builds, a declaration that resolves and builds alone gives a document that resolves
    and builds.  Its output is the old one, with the new block at the place of the declaration, and
    the memory of identifiers ends up the same.  In logical mode no field of the document may be
    marked as inherited from the declaration, if that is a delegate. -/
theorem unrelated_insert_builds {d : Document} {j : Job}
    (resolved : Schema.ofDocument d = .ok j.schema) {before after : List Declaration}
    (split : d.declarations = before ++ after) {extra : Declaration}
    (unrelated : extra.Unrelated d.declarations)
    (unmarked : j.mode = .logical → extra.Unmarked d.declarations) {memory memory' : Memory}
    {out : Target.Schema} (built : j.build memory = (.ok out, memory')) {s₁ : Schema}
    (resolvedAlone : Schema.ofDocument { d with declarations := [extra] } = .ok s₁)
    {start final : Memory} {alone : Target.Schema}
    (builtAlone : ({ j with schema := s₁ } : Job).build start = (.ok alone, final)) :
    alone.blocks.map Target.Block.heading = extra.heading?.toList ∧
    ∃ s', Schema.ofDocument { d with declarations := before ++ extra :: after } = .ok s' ∧
      ({ j with schema := s' } : Job).build memory =
        (.ok (insertBlocks out (before.filterMap Declaration.heading?).length alone.blocks),
          memory') := by
  obtain ⟨before', after', extra', schema, rfl, length, extended⟩ :=
    Schema.ofDocument_insert split resolved resolvedAlone unrelated.rootless unrelated.unnamed
  have frames := Schema.frames_ofDocument resolved
  have unrelated' := Schema.unrelated_ofDocument resolved resolvedAlone unrelated
  have unmarked' := fun logical =>
    Schema.unmarked_ofDocument resolved resolvedAlone unrelated (unmarked logical)
  rw [schema] at frames unrelated' unmarked'
  rw [split, List.map_append, List.map_append] at frames
  obtain ⟨frames, _⟩ := List.append_inj frames (by rw [List.length_map, List.length_map, length])
  constructor
  · rw [headings_build (congrArg (·.1) builtAlone)]
    show [extra'].filterMap Declaration.heading? = _
    rw [← extra.heading?_frame, ← Schema.frame_alone resolvedAlone, extra'.heading?_frame]
    cases headed : extra'.heading? with
    | none => simp [headed]
    | some heading => simp [headed]
  · have distinct := Schema.modelNames_nodup_of_ofDocument extended
    obtain ⟨block, isBlock, here⟩ := compileDeclaration_of_alone builtAlone unrelated' distinct
    have others : ∀ decl ∈ before' ++ after',
        ({ j with schema := ⟨before' ++ extra' :: after'⟩ } : Job).compileDeclaration decl =
          j.compileDeclaration decl :=
      fun _ hdecl => compileDeclaration_other schema unrelated' unmarked' hdecl
    obtain ⟨blocks, between, blocks', ok, ok', rfl⟩ :=
      (build_eq_ok_iff (congrArg Schema.declarations schema)).1 built
    -- the new declaration asks for no identifier, so those behind it start with the same memory
    refine ⟨_, extended, (build_eq_ok_iff rfl).2 ⟨blocks, between, block :: blocks', ?_, ?_, ?_⟩⟩
    · rw [mapM_congr_left fun decl hdecl => others decl (List.mem_append_left _ hdecl)]
      exact ok
    · rw [List.mapM_cons, here, pure_bind,
        mapM_congr_left fun decl hdecl => others decl (List.mem_append_right _ hdecl)]
      exact Compile.run_bind_eq_ok_iff.2 ⟨blocks', memory', ok', rfl⟩
    · have place := length_blocks ok
      rw [filterMap_heading?_of_frames frames] at place
      unfold insertBlocks
      rw [← place, List.take_left, List.drop_left, isBlock]
      cases block with
      | none => rfl
      | some block => rfl

/-! ## §3. Trying insertions -/

/-- Whether a job builds with the schema of another document, with identifiers of the standard
    length, to a schema that passes a test. -/
def buildsInstead (j : Job) (d : Document) (test : Target.Schema → Bool) : Bool :=
  match Schema.ofDocument d with
  | .ok schema =>
    match ({ j with schema } : Job).build (Memory.ofLength Identifier.standardLength) with
    | (.ok out, _) => test out
    | (.error _, _) => false
  | .error _ => false

theorem exists_buildsInstead {d : Document} {test : Target.Schema → Bool}
    (h : j.buildsInstead d test = true) :
    ∃ s out memory', Schema.ofDocument d = .ok s ∧
      ({ j with schema := s } : Job).build (Memory.ofLength Identifier.standardLength) =
        (.ok out, memory') ∧
      test out = true := by
  unfold buildsInstead at h
  split at h
  next schema resolved =>
    split at h
    next out memory' built => exact ⟨schema, out, memory', resolved, built, h⟩
    next => cases h
  next => cases h

/-- A leash is for a dog, and may have a spare one. -/
def leash : Model where
  name := "Leash"
  isDelegate := true
  fields := [
    { name := "id", type := { scalar := some "Int" }, attributes := [{ name := "@id" }] },
    { name := "spare", type := { reference := some "Leash", optional := true } },
    { name := "dog", type := { reference := some "Dog" } }]

/-- A leash between the animals and the dogs of the clinic gives a third block.  The relations to
    animals are widened for dogs as before. -/
theorem clinic_with_leash :
    ∃ (j : Job) (memory' : Memory) (out alone : Target.Schema) (s' : Schema),
      Schema.ofDocument clinic = .ok j.schema ∧ j.mode = .logical ∧
      j.build (Memory.ofLength Identifier.standardLength) = (.ok out, memory') ∧
      (Declaration.model leash).Unrelated clinic.declarations ∧
      alone.blocks.map Target.Block.heading = [{ kind := .model, name := "Leash" }] ∧
      Schema.ofDocument { clinic with
        declarations := clinic.declarations.take 2 ++ .model leash :: clinic.declarations.drop 2 } =
          .ok s' ∧
      ({ j with schema := s' } : Job).build (Memory.ofLength Identifier.standardLength) =
        (.ok (insertBlocks out 2 alone.blocks), memory') := by
  have unrelated : (Declaration.model leash).Unrelated clinic.declarations :=
    Declaration.unrelated_of_unmentioned rfl (by decide +kernel) (by decide +kernel)
  have unmarked : (Declaration.model leash).Unmarked clinic.declarations := by
    have none : ∀ m ∈ modelsOf clinic.declarations, ∀ f ∈ m.fields,
        f.inheritedFrom ≠ some leash.name := by
      decide +kernel
    intro _ isModel _
    cases isModel
    exact none
  have builds : clinic.buildsTo .logical (fun j _ =>
      j.buildsInstead { clinic with declarations := [.model leash] } fun _ => true) = true := by
    decide +kernel
  obtain ⟨j, out, memory', resolved, logical, built, test⟩ := Document.exists_build builds
  obtain ⟨s₁, alone, final, resolvedAlone, builtAlone, _⟩ := exists_buildsInstead test
  obtain ⟨headings, s', extended, builds⟩ := unrelated_insert_builds resolved
    (List.take_append_drop 2 clinic.declarations).symm unrelated (fun _ => unmarked) built
    resolvedAlone builtAlone
  exact ⟨j, memory', out, alone, s', resolved, logical, built, unrelated, headings, extended,
    builds⟩

/-- The owner of an animal is marked as inherited from a model that is not there. -/
def pound : Document where
  declarations := [
    .model {
      name := "Animal"
      isDelegate := true
      fields := [
        { name := "id", type := { scalar := some "Int" }, attributes := [{ name := "@id" }] },
        { name := "owner"
          type := { reference := some "User" }
          inheritedFrom := some "Ghost" }] },
    .model { name := "Dog", superTypes := ["Animal"] },
    .model {
      name := "User"
      fields := [
        { name := "id", type := { scalar := some "Int" }, attributes := [{ name := "@id" }] },
        { name := "pets", type := { reference := some "Animal", array := true } }] }]

/-- A delegate of that name. -/
def ghost : Model where
  name := "Ghost"
  isDelegate := true
  fields := [
    { name := "id", type := { scalar := some "Int" }, attributes := [{ name := "@id" }] }]

/-- A mark is a mention too: once there are ghosts, the owner of an animal counts as inherited from
    them, and the relation of the dogs to their owners loses its name. -/
theorem ghost_changes_dog :
    (Declaration.model ghost).Unrelated pound.declarations ∧
    ∃ (j : Job) (out alone out' : Target.Schema) (memory' final memory'' : Memory)
        (s₁ s' : Schema),
      Schema.ofDocument pound = .ok j.schema ∧ j.mode = .logical ∧
      j.build (Memory.ofLength Identifier.standardLength) = (.ok out, memory') ∧
      Schema.ofDocument { pound with declarations := [.model ghost] } = .ok s₁ ∧
      ({ j with schema := s₁ } : Job).build (Memory.ofLength Identifier.standardLength) =
        (.ok alone, final) ∧
      Schema.ofDocument { pound with declarations := pound.declarations ++ [.model ghost] } =
        .ok s' ∧
      ({ j with schema := s' } : Job).build (Memory.ofLength Identifier.standardLength) =
        (.ok out', memory'') ∧
      out' ≠ insertBlocks out 3 alone.blocks ∧ out'.findModel? "Dog" ≠ out.findModel? "Dog" := by
  refine ⟨Declaration.unrelated_of_unmentioned rfl (by decide +kernel) (by decide +kernel), ?_⟩
  have builds : pound.buildsTo .logical (fun j out =>
      j.buildsInstead { pound with declarations := [.model ghost] } fun alone =>
        j.buildsInstead { pound with declarations := pound.declarations ++ [.model ghost] }
          fun out' => out' != insertBlocks out 3 alone.blocks &&
            out'.findModel? "Dog" != out.findModel? "Dog") = true := by
    decide +kernel
  obtain ⟨j, out, memory', resolved, logical, built, test⟩ := Document.exists_build builds
  obtain ⟨s₁, alone, final, resolvedAlone, builtAlone, test⟩ := exists_buildsInstead test
  obtain ⟨s', out', memory'', extended, builtExtended, test⟩ := exists_buildsInstead test
  simp only [Bool.and_eq_true, bne_iff_ne] at test
  exact ⟨j, out, alone, out', memory', final, memory'', s₁, s', resolved, logical, built,
    resolvedAlone, builtAlone, extended, builtExtended, test⟩

end Job

end DelegateSchema
