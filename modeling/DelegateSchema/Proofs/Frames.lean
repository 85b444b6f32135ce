/-
  DelegateSchema.Proofs.Frames — what resolution leaves as it is.

  Resolution binds usages and hands down fields and attributes.  The frame of a declaration is all
  the rest: its kind, its name, its super types, its flags and its comments.

  Main results:
    * `Schema.frames_ofDocument` — a document and its schema have the same frames,
    * `Schema.forall_fields_ofDocument` — what holds of all fields of a document, holds of all
      fields of its schema.
-/
import DelegateSchema.Proofs.Headings

namespace DelegateSchema

/-! ## §1. Frames -/

/-- A model without what resolution fills in. -/
def Model.frame (m : Model) : Model :=
  { m with fields := [], attributes := [] }

theorem Model.eq_of_frame {m m' : Model} (same : m.frame = m'.frame) :
    m.name = m'.name ∧ m.superTypes = m'.superTypes ∧ m.isDelegate = m'.isDelegate ∧
      m.isAbstract = m'.isAbstract := by
  have name := congrArg Model.name same
  have bases := congrArg Model.superTypes same
  have delegate := congrArg Model.isDelegate same
  have abstract := congrArg Model.isAbstract same
  exact ⟨name, bases, delegate, abstract⟩

/-- A declaration without what resolution fills in. -/
def Declaration.frame : Declaration → Declaration
  | .model m => .model m.frame
  | .enum e => .enum { e with fields := [], attributes := [] }
  | decl => decl

theorem Declaration.heading?_frame (decl : Declaration) :
    decl.frame.heading? = decl.heading? := by
  cases decl <;> rfl

theorem filterMap_heading?_of_frames {decls decls' : List Declaration}
    (frames : decls'.map Declaration.frame = decls.map Declaration.frame) :
    decls'.filterMap Declaration.heading? = decls.filterMap Declaration.heading? := by
  have unframed : ∀ decls : List Declaration, (decls.map Declaration.frame).filterMap
      Declaration.heading? = decls.filterMap Declaration.heading? := by
    intro decls
    rw [List.filterMap_map]
    exact List.filterMap_congr fun decl _ => decl.heading?_frame
  rw [← unframed decls', frames, unframed decls]

theorem Declaration.model?_frame (decl : Declaration) :
    decl.frame.model? = decl.model?.map Model.frame := by
  cases decl <;> rfl

theorem map_frame_models (decls : List Declaration) :
    modelsOf (decls.map Declaration.frame) = (modelsOf decls).map Model.frame := by
  unfold modelsOf
  rw [List.filterMap_map, List.map_filterMap]
  exact List.filterMap_congr fun decl _ => decl.model?_frame

theorem exists_same_frame {decls decls' : List Declaration}
    (frames : decls'.map Declaration.frame = decls.map Declaration.frame) {m' : Model}
    (hm' : m' ∈ modelsOf decls') : ∃ m ∈ modelsOf decls, m.frame = m'.frame := by
  have hframe : m'.frame ∈ (modelsOf decls').map Model.frame := List.mem_map_of_mem hm'
  rw [← map_frame_models, frames, map_frame_models] at hframe
  exact List.mem_map.1 hframe

theorem Declaration.exists_model_same_frame {decl decl' : Declaration}
    (frame : decl'.frame = decl.frame) {x' : Model} (hx' : x' ∈ decl'.model?) :
    ∃ x ∈ decl.model?, x.frame = x'.frame := by
  have hframe : x'.frame ∈ decl'.model?.map Model.frame := Option.mem_map_of_mem _ hx'
  rw [← model?_frame, frame, model?_frame] at hframe
  exact Option.map_eq_some_iff.1 hframe

theorem rootless_of_frame {extra extra' : Declaration} (frame : extra'.frame = extra.frame)
    (rootless : ∀ x ∈ extra.model?, x.superTypes = []) :
    ∀ x' ∈ extra'.model?, x'.superTypes = [] := by
  intro x' hx'
  obtain ⟨x, hx, same⟩ := Declaration.exists_model_same_frame frame hx'
  rw [← (Model.eq_of_frame same).2.1]
  exact rootless x hx

theorem unnamed_of_frames {extra extra' : Declaration} {others others' : List Declaration}
    (frame : extra'.frame = extra.frame)
    (frames : others'.map Declaration.frame = others.map Declaration.frame)
    (unnamed : ∀ x ∈ extra.model?, ∀ m ∈ modelsOf others, x.name ≠ m.name) :
    ∀ x' ∈ extra'.model?, ∀ m' ∈ modelsOf others', x'.name ≠ m'.name := by
  intro x' hx' m' hm'
  obtain ⟨x, hx, same⟩ := Declaration.exists_model_same_frame frame hx'
  obtain ⟨m, hm, same'⟩ := exists_same_frame frames hm'
  rw [← (Model.eq_of_frame same).1, ← (Model.eq_of_frame same').1]
  exact unnamed x hx m hm

theorem frame_resolveDeclaration {r : Registry} {decl decl' : Declaration}
    (h : r.resolveDeclaration decl = .ok decl') : decl'.frame = decl.frame := by
  cases decl with
  | model m =>
    obtain ⟨m', rfl, resolves⟩ := Registry.resolveDeclaration_model h
    rw [resolves.rest]
    rfl
  | enum e =>
    obtain ⟨_, _, rest⟩ := bind_ok_iff.1 h
    obtain ⟨_, _, same⟩ := bind_ok_iff.1 rest
    cases same
    rfl
  | datasource b | generator b =>
    cases h
    rfl

theorem frame_mergeModel {models : List Model} {path : List String} {u m : Model}
    {known : u ∈ models} (h : mergeModel models path u known = .ok m) : m.frame = u.frame := by
  obtain ⟨_, _, rfl⟩ := mergeModel_eq_ok h
  rfl

theorem frame_mergeDeclaration {decls : List Declaration} {decl decl' : Declaration}
    (distinct : ((modelsOf decls).map (·.name)).Nodup) (member : decl ∈ decls)
    (h : mergeDeclaration (modelsOf decls) decl = .ok decl') : decl'.frame = decl.frame := by
  cases decl with
  | model u =>
    have merged := Schema.mergeDeclaration_rel distinct member h
    obtain ⟨m, isModel, known, ok⟩ := rel_exists_right merged rfl
    rw [decl'.eq_model isModel]
    exact congrArg Declaration.model (frame_mergeModel ok)
  | enum e | datasource e | generator e =>
    cases h
    rfl

theorem frames_of_forall₂ {decls decls' : List Declaration}
    (h : List.Forall₂ (fun decl decl' => decl'.frame = decl.frame) decls decls') :
    decls'.map Declaration.frame = decls.map Declaration.frame := by
  induction h with
  | nil => rfl
  | cons first _ ih => rw [List.map_cons, List.map_cons, first, ih]

/-! ## §2. Whole documents -/

/-- **Resolution fills in fields and attributes, and nothing else.** -/
theorem Schema.frames_ofDocument {d : Document} {s : Schema} (h : ofDocument d = .ok s) :
    s.declarations.map Declaration.frame = d.declarations.map Declaration.frame := by
  obtain ⟨decls, resolved, distinct, rest⟩ := ofDocument_eq_ok_iff.1 h
  rw [← frames_of_forall₂ (resolved.imp fun _ _ ok => frame_resolveDeclaration ok)]
  split at rest
  next =>
    obtain ⟨_, rfl⟩ := rest
    rfl
  next =>
    obtain ⟨merged, all, rfl⟩ := rest
    have members :=
      (List.forall₂_and_left decls merged).2 ⟨fun decl (h : decl ∈ decls) => h, all⟩
    exact frames_of_forall₂ (members.imp fun _ _ h => frame_mergeDeclaration distinct h.1 h.2)

/-- What the fields of a document satisfy, those of its schema satisfy, if usages do not matter to
    it, nor the marks of fields that are inherited from models of the document. -/
theorem Schema.forall_fields_ofDocument {d : Document} {s : Schema} (h : ofDocument d = .ok s)
    {Q : Field → Prop} (declared : ∀ m ∈ modelsOf d.declarations, ∀ f ∈ m.fields, Q f)
    (usages : ∀ f attributes, Q f → Q { f with attributes })
    (via : ∀ f, ∀ base ∈ d.modelNames, Q f → Q (f.inheritedVia base)) {m : Model}
    (hm : m ∈ s.models) : ∀ f ∈ m.fields, Q f := by
  have own : ∀ {u' : Model}, (∃ u ∈ modelsOf d.declarations, d.registry.ResolvesModel u u') →
      ∀ f ∈ u'.fields, Q f := by
    intro u' ⟨u, hu, resolves⟩ f hf
    obtain ⟨g, hg, attributes, _, rfl⟩ := forall₂_exists_left resolves.fields hf
    exact usages g attributes (declared u hu g hg)
  cases plain : d.flattened with
  | true =>
    obtain ⟨decls, resolved, _, rest⟩ := ofDocument_eq_ok_iff.1 h
    rw [plain] at rest
    obtain ⟨_, rfl⟩ := rest
    exact own (forall₂_exists_left (Registry.resolvesModels resolved) hm)
  | false =>
    obtain ⟨ownSchema, resolved, merges⟩ := merges_of_ofDocument h plain
    refine merges.forall_fields_via (fun u hu => own (forall₂_exists_left resolved hu)) ?_ hm
    intro f base hbase
    have name : base.name ∈ s.modelNames := List.mem_map_of_mem hbase
    rw [modelNames_eq_declared h plain] at name
    exact via f base.name name

end DelegateSchema
