/-
  DelegateSchema.Proofs.Usages — what a resolved usage says about its declaration.

  A usage that resolves carries the name and the kind of the declaration that its alias leads to,
  and this declaration is the one in force under its own name.  So a document that does not
  declare an attribute anew cannot change what usages of that attribute are.

  Main results:
    * `Registry.resolve_eq_ok` — a usage stays as it is or carries a declaration in force,
    * `Schema.isTarget_of_relation` — a relation is an attribute of the target language, unless
      the document declares it anew.
-/
import DelegateSchema.Compile.Attribute
import DelegateSchema.Proofs.Aliases
import DelegateSchema.Proofs.Decoding

namespace DelegateSchema

/-! ## §1. Declarations in force -/

namespace Registry

theorem decls_registerAll (r : Registry) (decls : List AttributeDecl) :
    (r.registerAll decls).decls = decls.reverse ++ r.decls := by
  unfold registerAll
  induction decls generalizing r with
  | nil => rfl
  | cons decl decls ih =>
    rw [List.foldl_cons, ih, List.reverse_cons, List.append_assoc]
    rfl

/-- Declarations of other names leave a name alone. -/
theorem get?_registerAll (r : Registry) {decls : List AttributeDecl} {name : String}
    (other : ∀ decl ∈ decls, decl.name ≠ name) : (r.registerAll decls).get? name = r.get? name := by
  have none_found : decls.reverse.find? (fun decl => decl.name == name) = none := by
    rw [List.find?_eq_none]
    intro decl hdecl
    simpa using other decl (List.mem_reverse.1 hdecl)
  unfold get?
  rw [decls_registerAll, List.find?_append, none_found]
  rfl

/-- **A usage stays as it is, or carries a declaration that is in force.** -/
theorem resolve_eq_ok {r : Registry} {a a' : Attribute} (h : r.resolve a = .ok a') :
    a' = a ∨ ∃ decl, r.get? decl.name = some decl ∧
      a' = { a with args := bindArgs decl.params a.args,
                    resolved := some ⟨decl.name, decl.target⟩ } := by
  rw [resolve_eq] at h
  cases canonical : r.canonical a.name with
  | error fault =>
    rw [canonical] at h
    cases h
  | ok answer =>
    rw [canonical] at h
    cases h
    cases answer with
    | none => exact Or.inl rfl
    | some decl => exact Or.inr ⟨decl, (canonical_eq_some_iff.1 canonical).inForce, rfl⟩

end Registry

/-! ## §2. Relations -/

/-- The relation that every document knows. -/
def Registry.relation : AttributeDecl :=
  targetAttribute "@relation" ["name", "fields", "references", "onDelete", "onUpdate", "map"]

theorem Document.get?_relation {d : Document}
    (kept : ∀ decl ∈ d.attributes, decl.name ≠ "@relation") :
    d.registry.get? "@relation" = some Registry.relation := by
  unfold Document.registry
  rw [Registry.get?_registerAll _ kept]
  decide

theorem Document.isTarget_of_resolve {d : Document} {a a' : Attribute}
    (kept : ∀ decl ∈ d.attributes, decl.name ≠ "@relation") (unresolved : a.resolved = none)
    (h : d.registry.resolve a = .ok a') (relation : a'.isNamed "@relation" = true) :
    a'.isTarget = true := by
  rcases Registry.resolve_eq_ok h with rfl | ⟨decl, inForce, rfl⟩
  · simp [Attribute.isNamed, Attribute.canonicalName, unresolved] at relation
  · have named : decl.name = "@relation" := by
      simpa [Attribute.isNamed, Attribute.canonicalName] using relation
    rw [named, Document.get?_relation kept] at inForce
    cases inForce
    rfl

namespace Schema

variable {d : Document} {s : Schema}

/-- What all declared fields satisfy, all fields of the schema satisfy, if neither resolving the
    usages of a field nor inheriting it changes it. -/
theorem forall_fields_of_ofDocument (h : ofDocument d = .ok s) (plain : d.flattened = false)
    {P Q : Field → Prop} (declared : ∀ m ∈ modelsOf d.declarations, ∀ f ∈ m.fields, P f)
    (resolved : ∀ f usages, P f →
      List.Forall₂ (fun a a' => d.registry.resolve a = .ok a') f.attributes usages →
      Q { f with attributes := usages })
    (via : ∀ f base, Q f → Q (f.inheritedVia base)) {m : Model} (hm : m ∈ s.models) :
    ∀ f ∈ m.fields, Q f := by
  obtain ⟨own, models, merges⟩ := merges_of_ofDocument h plain
  refine merges.forall_fields ?_ via hm
  intro u hu f hf
  obtain ⟨m, hm, resolves⟩ := forall₂_exists_left models hu
  obtain ⟨g, hg, attributes, all, rfl⟩ := forall₂_exists_left resolves.fields hf
  exact resolved g attributes (declared m hm g hg) all

/-- **A relation is an attribute of the target language**, unless the document declares it anew. -/
theorem isTarget_of_relation (h : ofDocument d = .ok s) (plain : d.flattened = false)
    (unresolved : d.Unresolved) (kept : ∀ decl ∈ d.attributes, decl.name ≠ "@relation")
    {m : Model} (hm : m ∈ s.models) {f : Field} (hf : f ∈ m.fields) {a : Attribute}
    (ha : a ∈ f.attributes) (relation : a.isNamed "@relation" = true) : a.isTarget = true := by
  refine forall_fields_of_ofDocument h plain
    (P := fun f => ∀ a ∈ f.attributes, a.Unresolved)
    (Q := fun f => ∀ a ∈ f.attributes, a.isNamed "@relation" = true → a.isTarget = true)
    ?_ ?_ (fun _ _ targets => targets) hm f hf a ha relation
  · intro m hm f hf a ha
    exact unresolved a (Document.mem_usages_of_field hm hf ha)
  · intro f usages empty all a ha relation
    obtain ⟨written, hwritten, resolved⟩ := forall₂_exists_left all ha
    exact Document.isTarget_of_resolve kept (empty written hwritten).resolved resolved relation

end Schema

end DelegateSchema
