/-
  DelegateSchema.Proofs.Flattening — a schema is a flattened document again.

  A schema holds all fields that its models inherit, and its usages are resolved.  When the slots
  of the usages are emptied, its declarations are those of a flattened document, which is resolved
  without a merge; resolving it gives the schema back.

  Main results:
    * `Registry.settled_of_resolve` — a resolved usage with its slots emptied resolves to itself,
    * `Schema.Merges.forall_usages` — what own usages satisfy, merged usages satisfy,
    * `flattened_resolves_to_schema` — the same schema comes from both kinds of documents.
-/
import DelegateSchema.Proofs.Usages

namespace DelegateSchema

/-! ## §1. Usages with their slots emptied -/

/-- The declaration with every usage on it or its fields replaced. -/
def Declaration.mapUsages (f : Attribute → Attribute) : Declaration → Declaration
  | .enum e => .enum { e with
      attributes := e.attributes.map f
      fields := e.fields.map fun g => { g with attributes := g.attributes.map f } }
  | .model m => .model { m with
      attributes := m.attributes.map f
      fields := m.fields.map fun g => { g with attributes := g.attributes.map f } }
  | decl => decl

namespace Registry

variable {r : Registry}

theorem map_cleared_bindArgs (params : List String) (args : List AttributeArg) :
    (bindArgs params args).map AttributeArg.cleared = args.map AttributeArg.cleared := by
  induction args generalizing params with
  | nil => rfl
  | cons arg args ih =>
    unfold bindArgs
    split
    next => rw [List.map_cons, List.map_cons, ih, AttributeArg.cleared, AttributeArg.cleared]
    next => rw [List.map_cons, List.map_cons, ih, AttributeArg.cleared, AttributeArg.cleared]

/-- The usage is what its written form resolves to. -/
def Settled (r : Registry) (a : Attribute) : Prop :=
  r.resolve a.cleared = .ok a

/-- **A usage that was resolved resolves to itself again.** -/
theorem settled_of_resolve {a a' : Attribute} (unresolved : a.Unresolved)
    (h : r.resolve a = .ok a') : r.Settled a' := by
  have written : a'.cleared = a := by
    rcases resolve_eq_ok h with rfl | ⟨decl, _, rfl⟩
    · exact unresolved.cleared_eq
    · refine Eq.trans ?_ unresolved.cleared_eq
      simp only [Attribute.cleared, map_cleared_bindArgs]
  unfold Settled
  rw [written]
  exact h

/-! ## §2. Declarations -/

theorem resolveAll_cleared {attributes : List Attribute} (settled : ∀ a ∈ attributes, r.Settled a) :
    r.resolveAll (attributes.map Attribute.cleared) = .ok attributes := by
  unfold resolveAll
  rw [mapM_ok_iff, List.forall₂_map_left_iff, List.forall₂_same]
  exact settled

/-- A declaration of settled usages resolves to itself. -/
theorem resolveDeclaration_cleared {decl : Declaration}
    (settled : ∀ a ∈ decl.usages, r.Settled a) :
    r.resolveDeclaration (decl.mapUsages Attribute.cleared) = .ok decl := by
  cases decl with
  | datasource b | generator b => rfl
  | enum e | model e =>
    obtain ⟨own, onFields⟩ := List.forall_mem_append.1 settled
    refine bind_ok_iff.2 ⟨_, resolveAll_cleared own, bind_ok_iff.2 ⟨e.fields, ?_, rfl⟩⟩
    rw [mapM_ok_iff, List.forall₂_map_left_iff, List.forall₂_same]
    intro f hf
    refine bind_ok_iff.2 ⟨_, resolveAll_cleared ?_, rfl⟩
    intro a ha
    exact onFields a (List.mem_flatMap.2 ⟨f, hf, ha⟩)

/-- The usages on resolved fields, of whatever kind they are, were usages on the fields. -/
theorem exists_of_resolveFields {φ : Type} {fields fields' : List φ}
    {usagesOf : φ → List Attribute} {put : φ → List Attribute → φ}
    (usagesOf_put : ∀ f usages, usagesOf (put f usages) = usages)
    (h : (fields.mapM fun f => do return put f (← r.resolveAll (usagesOf f)) :
      Except ResolveError (List φ)) = .ok fields') {a' : Attribute}
    (ha' : a' ∈ fields'.flatMap usagesOf) :
    ∃ a ∈ fields.flatMap usagesOf, r.resolve a = .ok a' := by
  obtain ⟨f', hf', ha'⟩ := List.mem_flatMap.1 ha'
  obtain ⟨f, hf, resolved⟩ := forall₂_exists_left (mapM_ok_iff.1 h) hf'
  obtain ⟨usages, all, same⟩ := bind_ok_iff.1 resolved
  rw [pure_ok_iff.1 same, usagesOf_put] at ha'
  obtain ⟨a, ha, resolves⟩ := forall₂_exists_left (mapM_ok_iff.1 all) ha'
  exact ⟨a, List.mem_flatMap.2 ⟨f, hf, ha⟩, resolves⟩

theorem exists_of_resolveDeclaration {decl decl' : Declaration}
    (h : r.resolveDeclaration decl = .ok decl') {a' : Attribute} (ha' : a' ∈ decl'.usages) :
    ∃ a ∈ decl.usages, r.resolve a = .ok a' := by
  cases decl with
  | datasource b | generator b =>
    cases h
    cases ha'
  | enum e | model e =>
    obtain ⟨attributes, own, h⟩ := bind_ok_iff.1 h
    obtain ⟨fields, onFields, h⟩ := bind_ok_iff.1 h
    cases pure_ok_iff.1 h
    rcases List.mem_append.1 ha' with onDecl | onField
    · obtain ⟨a, ha, resolves⟩ := forall₂_exists_left (mapM_ok_iff.1 own) onDecl
      exact ⟨a, List.mem_append_left _ ha, resolves⟩
    · obtain ⟨a, ha, resolves⟩ := exists_of_resolveFields (fun _ _ => rfl) onFields onField
      exact ⟨a, List.mem_append_right _ ha, resolves⟩

end Registry

/-! ## §3. Usages on merged models -/

/-- An attribute taken over comes from one of the super types. -/
theorem Inherited.exists_of_mem_attributes {own : Model} {bases : List Model} {sofar : Inherited}
    {a : Attribute} (h : a ∈ (bases.foldl (absorb own) sofar).attributes) :
    a ∈ sofar.attributes ∨ ∃ base ∈ bases, a ∈ base.attributes := by
  induction bases generalizing sofar with
  | nil => exact Or.inl h
  | cons base bases ih =>
    rcases ih h with absorbed | ⟨base', hbase', ha⟩
    · rcases List.mem_append.1 absorbed with old | taken
      · exact Or.inl old
      · exact Or.inr ⟨base, List.mem_cons_self, List.mem_of_mem_filter taken⟩
    · exact Or.inr ⟨base', List.mem_cons_of_mem _ hbase', ha⟩

namespace Schema

variable {own s : Schema}

/-- **What all own usages satisfy, all merged usages satisfy**: the merge copies usages and makes
    no new ones. -/
theorem Merges.forall_usages (h : Merges own s) {Q : Attribute → Prop}
    (ownUsages : ∀ u ∈ own.models, ∀ a ∈ (Declaration.model u).usages, Q a) {m : Model}
    (hm : m ∈ s.models) : ∀ a ∈ (Declaration.model m).usages, Q a := by
  refine List.forall_mem_append.2 ⟨?_, ?_⟩
  · -- up the super types, as for the fields
    have found := model?_of_mem h.modelNames_nodup hm
    generalize m.name = name at found
    induction name using h.grounded.induction generalizing m with
    | h name ih =>
      intro a ha
      obtain ⟨u, hu, bases, hbases, rfl⟩ := h.exists_own hm
      rcases List.mem_append.1 ha with declared | inherited
      · exact ownUsages u hu a (List.mem_append_left _ declared)
      · rcases Inherited.exists_of_mem_attributes inherited with none | ⟨base, hbase, ha⟩
        · cases none
        · obtain ⟨baseName, listed, hbaseName⟩ := forall₂_exists_left hbases hbase
          have lists : s.Lists name baseName := (lists_iff found).2 listed
          exact ih baseName lists (mem_of_findModel? hbaseName) hbaseName a ha
  · intro a ha
    obtain ⟨f, hf, ha⟩ := List.mem_flatMap.1 ha
    refine h.forall_fields (Q := fun f => ∀ a ∈ f.attributes, Q a) ?_ (fun _ _ all => all) hm f hf
      a ha
    intro u hu f hf a ha
    exact ownUsages u hu a (List.mem_append_right _ (List.mem_flatMap.2 ⟨f, hf, ha⟩))

/-- The merge leaves a declaration as it is, unless it is a model. -/
theorem mergeDeclaration_other {models : List Model} {decl decl' : Declaration}
    (h : mergeDeclaration models decl = .ok decl') (other : decl'.model? = none) :
    decl' = decl := by
  cases decl with
  | model m =>
    simp only [mergeDeclaration] at h
    split at h
    next =>
      obtain ⟨merged, _, same⟩ := bind_ok_iff.1 h
      cases pure_ok_iff.1 same
      cases other
    next => cases h
  | enum e | datasource e | generator e =>
    cases h
    rfl

theorem forall_usages_of_mergeDeclaration {decls merged : List Declaration}
    (distinct : ((modelsOf decls).map (·.name)).Nodup)
    (all : List.Forall₂
      (fun decl decl' => mergeDeclaration (modelsOf decls) decl = .ok decl') decls merged)
    {Q : Attribute → Prop} (usages : ∀ decl ∈ decls, ∀ a ∈ decl.usages, Q a) :
    ∀ decl ∈ merged, ∀ a ∈ decl.usages, Q a := by
  intro decl' hdecl'
  obtain ⟨decl, hdecl, ok⟩ := forall₂_exists_left all hdecl'
  cases isModel : decl'.model? with
  | none =>
    rw [mergeDeclaration_other ok isModel]
    exact usages decl hdecl
  | some m =>
    have member : m ∈ modelsOf merged := List.mem_filterMap.2 ⟨decl', hdecl', isModel⟩
    rw [decl'.eq_model isModel]
    refine (merges_of_mergeDeclaration distinct all).forall_usages ?_ member
    intro u hu
    obtain ⟨decl, hdecl, isModel⟩ := List.mem_filterMap.1 hu
    rw [← decl.eq_model isModel]
    exact usages decl hdecl

end Schema

/-! ## §4. Flattened documents -/

/-- The schema written out as a document that uses the attributes of `d`. -/
def Document.flattenedTo (d : Document) (s : Schema) : Document where
  attributes := d.attributes
  flattened := true
  declarations := s.declarations.map (Declaration.mapUsages Attribute.cleared)

namespace Schema

variable {d : Document} {s : Schema}

/-- All usages of the schema of a document are settled. -/
theorem settled_of_ofDocument (h : ofDocument d = .ok s) (plain : d.flattened = false)
    (unresolved : d.Unresolved) : ∀ decl ∈ s.declarations, ∀ a ∈ decl.usages,
      d.registry.Settled a := by
  obtain ⟨decls, resolved, distinct, rest⟩ := ofDocument_eq_ok_iff.1 h
  rw [plain] at rest
  obtain ⟨merged, all, rfl⟩ := rest
  refine forall_usages_of_mergeDeclaration distinct all ?_
  intro decl' hdecl' a' ha'
  obtain ⟨decl, hdecl, ok⟩ := forall₂_exists_left resolved hdecl'
  obtain ⟨a, ha, resolves⟩ := Registry.exists_of_resolveDeclaration ok ha'
  exact Registry.settled_of_resolve (unresolved a (List.mem_flatMap.2 ⟨decl, hdecl, ha⟩)) resolves

/-- The super types of the models of a schema are models. -/
theorem checkSuperTypes_of_ofDocument (h : ofDocument d = .ok s) (plain : d.flattened = false) :
    checkSuperTypes s.models = .ok () := by
  obtain ⟨own, _, merges⟩ := merges_of_ofDocument h plain
  rw [checkSuperTypes_ok_iff]
  intro m hm base listed
  obtain ⟨b, isModel, _⟩ := merges.fieldNames_of_lists hm listed
  exact Option.isSome_iff_exists.2 ⟨b, isModel⟩

/-- **A flattened document resolves to the same schema.**  Whatever a document resolves to, the
    declarations of the result, with all slots of their usages emptied, resolve to it as a
    flattened document with the same attributes.  The slots of the first document are empty too;
    no document that was read has filled ones. -/
theorem flattened_resolves_to_schema (h : ofDocument d = .ok s) (plain : d.flattened = false)
    (unresolved : d.Unresolved) : ofDocument (d.flattenedTo s) = .ok s := by
  refine ofDocument_eq_ok_iff.2 ⟨s.declarations, ?_, modelNames_nodup_of_ofDocument h,
    checkSuperTypes_of_ofDocument h plain, rfl⟩
  show List.Forall₂ _ (s.declarations.map _) s.declarations
  rw [List.forall₂_map_left_iff, List.forall₂_same]
  intro decl hdecl
  exact Registry.resolveDeclaration_cleared (settled_of_ofDocument h plain unresolved decl hdecl)

end Schema

/-- Trees are plants; keys are written by an alias, and one attribute is not declared at all. -/
def orchard : Document where
  attributes := [{ name := "@key", aliasOf := some "@id" }]
  declarations := [
    .enum {
      name := "Fruit"
      fields := [
        { name := "APPLE",
          attributes := [
            { name := "@map",
              args := [{ name := none, value := .literal (.string "apple") }] }] }] },
    .model {
      name := "Plant"
      isAbstract := true
      fields := [
        { name := "id", type := { scalar := some "Int" },
          attributes := [{ name := "@key" }, { name := "@unheard" }] }] },
    .model {
      name := "Tree"
      fields := [{ name := "height", type := { scalar := some "Int" } }]
      superTypes := ["Plant"] }]

/-- A tree has the key of its plant, whose alias is resolved, in the schema of the orchard and so
    in that of its flattened document. -/
theorem orchard_flattened :
    ∃ (s : Schema) (tree : Model), Schema.ofDocument orchard = .ok s ∧
      s.model? "Tree" = some tree ∧ (tree.field? "id").any (·.hasAttribute "@id") = true ∧
      Schema.ofDocument (orchard.flattenedTo s) = .ok s := by
  have resolves : (Schema.ofDocument orchard).toOption.any (fun s =>
      (s.model? "Tree").any fun tree => (tree.field? "id").any (·.hasAttribute "@id")) = true := by
    decide +kernel
  have slots : ∀ a ∈ orchard.usages, a.resolved = none ∧ ∀ arg ∈ a.args, arg.param = none := by
    decide
  have unresolved : orchard.Unresolved := fun a ha => ⟨(slots a ha).1, (slots a ha).2⟩
  obtain ⟨s, resolved, trees⟩ := (Option.any_eq_true _ _).1 resolves
  obtain ⟨tree, isModel, hasKey⟩ := (Option.any_eq_true _ _).1 trees
  have resolved := eq_ok_of_toOption resolved
  exact ⟨s, tree, resolved, isModel, hasKey,
    Schema.flattened_resolves_to_schema resolved rfl unresolved⟩

end DelegateSchema
