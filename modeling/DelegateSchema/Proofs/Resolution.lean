/-
  DelegateSchema.Proofs.Resolution — what a document resolves to.

  Resolution binds the attribute usages, refuses a second model of one name, and merges the super
  types of every model.  `Merges` says what the merge does, for a document that is not flattened:
  each merged model is its own model with what the merged models of its super types hand down, and
  the super types run in no circle.

  Main results:
    * `ofDocument_eq_ok_iff` — the stages of resolution,
    * `merges_of_ofDocument` — a document that resolves is merged from its own models,
    * `Merges.fieldNames_of_path` — a model has the field names of all models above it,
    * `Merges.forall_fields_via` — what own fields satisfy, merged fields satisfy,
    * `exists_split_inherited` — a field that a model does not declare itself has a name of its
      own and is marked as inherited.
-/
import DelegateSchema.Proofs.Lineage
import DelegateSchema.Proofs.Merging
import Mathlib.Order.WellFounded

namespace DelegateSchema

/-! ## §1. Lists that run side by side -/

section SideBySide

variable {α β : Type} {R : α → β → Prop}

theorem forall₂_find? {xs : List α} {ys : List β} (h : List.Forall₂ R xs ys) {p : α → Bool}
    {q : β → Bool} (same : ∀ x y, R x y → p x = q y) {x : α} (found : xs.find? p = some x) :
    ∃ y, ys.find? q = some y ∧ R x y := by
  induction h with
  | nil => cases found
  | @cons a b xs ys hab _ ih =>
    cases hp : p a with
    | true =>
      rw [List.find?_cons_of_pos hp] at found
      cases found
      exact ⟨b, List.find?_cons_of_pos (same x b hab ▸ hp), hab⟩
    | false =>
      rw [List.find?_cons_of_neg (by simp [hp])] at found
      obtain ⟨y, hy, hxy⟩ := ih found
      exact ⟨y, by rw [List.find?_cons_of_neg (by simp [← same a b hab, hp]), hy], hxy⟩

theorem forall₂_exists_left {xs : List α} {ys : List β} (h : List.Forall₂ R xs ys) {y : β}
    (hy : y ∈ ys) : ∃ x ∈ xs, R x y := by
  induction h with
  | nil => cases hy
  | @cons a b xs ys hab _ ih =>
    rcases List.mem_cons.1 hy with rfl | later
    · exact ⟨a, List.mem_cons_self, hab⟩
    · obtain ⟨x, hx, hxy⟩ := ih later
      exact ⟨x, List.mem_cons_of_mem _ hx, hxy⟩

theorem forall₂_exists_right {xs : List α} {ys : List β} (h : List.Forall₂ R xs ys) {x : α}
    (hx : x ∈ xs) : ∃ y ∈ ys, R x y := by
  obtain ⟨y, hy, hxy⟩ := forall₂_exists_left h.flip hx
  exact ⟨y, hy, hxy⟩

/-- Where elements correspond one by one, so do the results of two partial functions on them that
    agree on where there is one. -/
theorem forall₂_filterMap {γ δ : Type} {S : γ → δ → Prop} {f : α → Option γ} {g : β → Option δ}
    {xs : List α} {ys : List β} (h : List.Forall₂ R xs ys)
    (results : ∀ x y, R x y → Option.Rel S (f x) (g y)) :
    List.Forall₂ S (xs.filterMap f) (ys.filterMap g) := by
  induction h with
  | nil => exact List.Forall₂.nil
  | @cons x y xs ys hxy _ ih =>
    have result := results x y hxy
    rw [List.filterMap_cons, List.filterMap_cons]
    revert result
    cases f x with
    | none =>
      cases g y with
      | none => exact fun _ => ih
      | some b => exact fun result => nomatch result
    | some a =>
      cases g y with
      | none => exact fun result => nomatch result
      | some b =>
        intro result
        cases result with
        | some hab => exact List.Forall₂.cons hab ih

theorem rel_isSome {x? : Option α} {y? : Option β} (h : Option.Rel R x? y?) :
    x?.isSome = y?.isSome := by
  cases h with
  | none => rfl
  | some _ => rfl

theorem rel_exists_right {x? : Option α} {y? : Option β} (h : Option.Rel R x? y?) {x : α}
    (hx : x? = some x) : ∃ y, y? = some y ∧ R x y := by
  cases h with
  | none => cases hx
  | some hxy =>
    cases hx
    exact ⟨_, rfl, hxy⟩

/-- So do the first results. -/
theorem forall₂_findSome? {γ δ : Type} {S : γ → δ → Prop} {f : α → Option γ} {g : β → Option δ}
    {xs : List α} {ys : List β} (h : List.Forall₂ R xs ys)
    (results : ∀ x y, R x y → Option.Rel S (f x) (g y)) :
    Option.Rel S (xs.findSome? f) (ys.findSome? g) := by
  have all := forall₂_filterMap h results
  rw [← List.head?_filterMap, ← List.head?_filterMap]
  generalize xs.filterMap f = us, ys.filterMap g = vs at all ⊢
  cases all with
  | nil => exact Option.Rel.none
  | cons first _ => exact Option.Rel.some first

end SideBySide

/-! ## §2. Usages -/

/-- The attributes that a document can use: the built-in ones and its own. -/
def Document.registry (d : Document) : Registry :=
  Registry.standard.registerAll d.attributes

/-- The document has a model `name` that lists `base` among its super types. -/
def Document.Extends (d : Document) (name base : String) : Prop :=
  DelegateSchema.Extends (modelsOf d.declarations) name base

/-- The names of the models that a document declares. -/
def Document.modelNames (d : Document) : List String :=
  (modelsOf d.declarations).map (·.name)

/-- The usages on a declaration and its fields. -/
def Declaration.usages : Declaration → List Attribute
  | .enum e => e.attributes ++ e.fields.flatMap (·.attributes)
  | .model m => m.attributes ++ m.fields.flatMap (·.attributes)
  | .datasource _ | .generator _ => []

/-- The usages of a document. -/
def Document.usages (d : Document) : List Attribute :=
  d.declarations.flatMap Declaration.usages

theorem Declaration.eq_model {m : Model} (decl : Declaration) (h : decl.model? = some m) :
    decl = .model m := by
  cases decl with
  | model m' =>
    cases h
    rfl
  | enum e | datasource e | generator e => cases h

theorem Document.mem_usages_of_field {d : Document} {m : Model} {f : Field} {a : Attribute}
    (hm : m ∈ modelsOf d.declarations) (hf : f ∈ m.fields) (ha : a ∈ f.attributes) :
    a ∈ d.usages := by
  obtain ⟨decl, hdecl, isModel⟩ := List.mem_filterMap.1 hm
  rw [decl.eq_model isModel] at hdecl
  refine List.mem_flatMap.2 ⟨_, hdecl, List.mem_append_right _ ?_⟩
  exact List.mem_flatMap.2 ⟨f, hf, ha⟩

namespace Registry

variable {r : Registry}

/-- The field `f'` is `f` with its usages resolved. -/
def ResolvesField (r : Registry) (f f' : Field) : Prop :=
  ∃ usages, List.Forall₂ (fun a a' => r.resolve a = .ok a') f.attributes usages ∧
    f' = { f with attributes := usages }

/-- The model `m'` is `m` with its usages resolved. -/
structure ResolvesModel (r : Registry) (m m' : Model) : Prop where
  attributes : List.Forall₂ (fun a a' => r.resolve a = .ok a') m.attributes m'.attributes
  fields : List.Forall₂ r.ResolvesField m.fields m'.fields
  rest : m' = { m with attributes := m'.attributes, fields := m'.fields }

theorem ResolvesModel.superTypes_eq {m m' : Model} (h : r.ResolvesModel m m') :
    m'.superTypes = m.superTypes := by
  rw [h.rest]

theorem ResolvesModel.name_eq {m m' : Model} (h : r.ResolvesModel m m') : m'.name = m.name := by
  rw [h.rest]

theorem ResolvesModel.fieldNames_eq {m m' : Model} (h : r.ResolvesModel m m') :
    m'.fieldNames = m.fieldNames := by
  unfold Model.fieldNames
  have fields := h.fields
  generalize m.fields = fs, m'.fields = fs' at fields ⊢
  induction fields with
  | nil => rfl
  | cons first _ ih =>
    obtain ⟨_, _, rfl⟩ := first
    rw [List.map_cons, List.map_cons, ih]

theorem resolveField_eq_ok {f f' : Field}
    (h : (do return { f with attributes := ← r.resolveAll f.attributes } :
      Except ResolveError Field) = .ok f') : r.ResolvesField f f' := by
  obtain ⟨usages, ok, same⟩ := bind_ok_iff.1 h
  exact ⟨usages, mapM_ok_iff.1 ok, (Except.ok.inj same).symm⟩

theorem resolveDeclaration_model {m : Model} {decl : Declaration}
    (h : r.resolveDeclaration (.model m) = .ok decl) :
    ∃ m', decl = .model m' ∧ r.ResolvesModel m m' := by
  unfold resolveDeclaration at h
  obtain ⟨usages, ok, rest⟩ := bind_ok_iff.1 h
  obtain ⟨fields, ok', same⟩ := bind_ok_iff.1 rest
  refine ⟨{ m with attributes := usages, fields }, (Except.ok.inj same).symm, ?_, ?_, rfl⟩
  · exact mapM_ok_iff.1 ok
  · exact (mapM_ok_iff.1 ok').imp fun _ _ hf => resolveField_eq_ok hf

/-- Resolution leaves every declaration of its kind. -/
theorem resolveDeclaration_rel {decl decl' : Declaration}
    (h : r.resolveDeclaration decl = .ok decl') :
    Option.Rel r.ResolvesModel decl.model? decl'.model? := by
  cases decl with
  | model m =>
    obtain ⟨m', rfl, hm⟩ := resolveDeclaration_model h
    exact Option.Rel.some hm
  | enum e =>
    unfold resolveDeclaration at h
    obtain ⟨_, _, rest⟩ := bind_ok_iff.1 h
    obtain ⟨_, _, same⟩ := bind_ok_iff.1 rest
    cases same
    exact Option.Rel.none
  | datasource b | generator b =>
    cases h
    exact Option.Rel.none

theorem resolvesModels {decls decls' : List Declaration}
    (h : List.Forall₂ (fun decl decl' => r.resolveDeclaration decl = .ok decl') decls decls') :
    List.Forall₂ r.ResolvesModel (modelsOf decls) (modelsOf decls') :=
  forall₂_filterMap h fun _ _ ok => resolveDeclaration_rel ok

theorem modelNames_of_resolves {ms ms' : List Model} (h : List.Forall₂ r.ResolvesModel ms ms') :
    ms'.map (·.name) = ms.map (·.name) := by
  induction h with
  | nil => rfl
  | cons first _ ih => rw [List.map_cons, List.map_cons, first.name_eq, ih]

end Registry

/-! ## §3. The stages of resolution -/

namespace Schema

theorem checkNames_ok_iff (seen : List String) (models : List Model) :
    checkNames seen models = .ok () ↔
      (models.map (·.name)).Nodup ∧ ∀ m ∈ models, m.name ∉ seen := by
  induction models generalizing seen with
  | nil => simp [checkNames]
  | cons m rest ih =>
    unfold checkNames
    rw [List.map_cons, List.nodup_cons, List.forall_mem_cons]
    split
    next taken =>
      constructor
      · intro h
        cases h
      · intro ⟨_, free, _⟩
        exact absurd (List.contains_iff_mem.1 taken) free
    next free =>
      rw [ih]
      constructor
      · intro ⟨distinct, others⟩
        refine ⟨⟨?_, distinct⟩, fun h => free (List.contains_iff_mem.2 h), ?_⟩
        · intro again
          obtain ⟨m', hm', same⟩ := List.mem_map.1 again
          exact others m' hm' (by rw [same]; exact List.mem_cons_self)
        · intro m' hm' h
          exact others m' hm' (List.mem_cons_of_mem _ h)
      · intro ⟨⟨new, distinct⟩, _, others⟩
        refine ⟨distinct, ?_⟩
        intro m' hm' h
        rcases List.mem_cons.1 h with same | old
        · exact new (same ▸ List.mem_map.2 ⟨m', hm', rfl⟩)
        · exact others m' hm' old

theorem checkSuperTypes_ok_iff (models : List Model) :
    checkSuperTypes models = .ok () ↔
      ∀ m ∈ models, ∀ base ∈ m.superTypes, (findModel? models base).isSome = true := by
  unfold checkSuperTypes
  rw [forM_ok_iff]
  refine forall₂_congr fun m _ => ?_
  rw [forM_ok_iff]
  refine forall₂_congr fun base _ => ?_
  split
  next known => exact iff_of_true rfl known
  next missing => exact iff_of_false (fun h => nomatch h) missing

theorem ofDocument_eq_ok_iff {d : Document} {s : Schema} :
    ofDocument d = .ok s ↔ ∃ decls,
      List.Forall₂ (fun decl decl' => d.registry.resolveDeclaration decl = .ok decl')
        d.declarations decls ∧
      ((modelsOf decls).map (·.name)).Nodup ∧
      if d.flattened then checkSuperTypes (modelsOf decls) = .ok () ∧ s = ⟨decls⟩
      else ∃ merged, List.Forall₂
          (fun decl decl' => mergeDeclaration (modelsOf decls) decl = .ok decl') decls merged ∧
        s = ⟨merged⟩ := by
  have names : ∀ decls, checkNames [] (modelsOf decls) = .ok () ↔
      ((modelsOf decls).map (·.name)).Nodup := by
    intro decls
    rw [checkNames_ok_iff]
    simp
  unfold ofDocument
  simp only [bind_ok_iff]
  refine exists_congr fun decls => and_congr mapM_ok_iff ?_
  rw [Unique.exists_iff, names decls]
  refine and_congr_right fun distinct => ?_
  cases d.flattened with
  | true =>
    show _ >>= _ = Except.ok s ↔ _ ∧ _
    rw [bind_ok_iff, Unique.exists_iff]
    exact and_congr Iff.rfl pure_ok_iff
  | false =>
    show _ >>= _ = Except.ok s ↔ ∃ merged, _
    rw [bind_ok_iff, mergeInheritance_eq distinct]
    exact exists_congr fun merged => and_congr mapM_ok_iff pure_ok_iff

/-! ## §4. Documents that are not flattened -/

/-- What the schema `own`, whose models hold only their own fields, is merged to. -/
structure Merges (own s : Schema) : Prop where
  /-- No two models have one name. -/
  distinct : own.modelNames.Nodup
  /-- A merged model is its own model with what its merged super types hand down. -/
  models : List.Forall₂ (fun u m => ∃ bases,
      List.Forall₂ (fun name base => s.model? name = some base) u.superTypes bases ∧
      m = u.withInherited (Inherited.ofBases u bases)) own.models s.models
  /-- The super types run in no circle. -/
  grounded : WellFounded fun base name => s.Lists name base

theorem mergeDeclaration_rel {decls : List Declaration} {decl decl' : Declaration}
    (distinct : ((modelsOf decls).map (·.name)).Nodup) (member : decl ∈ decls)
    (h : mergeDeclaration (modelsOf decls) decl = .ok decl') :
    Option.Rel (fun u m => ∃ known, mergeModel (modelsOf decls) [] u known = .ok m)
      decl.model? decl'.model? := by
  cases decl with
  | model u =>
    have known : u ∈ modelsOf decls := List.mem_filterMap.2 ⟨_, member, rfl⟩
    have found := findModel?_of_mem distinct known
    rw [mergeDeclaration_of_found found] at h
    obtain ⟨m, ok, rfl⟩ := map_ok_iff.1 h
    exact Option.Rel.some ⟨known, ok⟩
  | enum e | datasource e | generator e =>
    cases h
    exact Option.Rel.none

section Merged

variable {own s : Schema}

theorem name_mergeModel {models : List Model} {path : List String} {u m : Model}
    {known : u ∈ models} (h : mergeModel models path u known = .ok m) : m.name = u.name := by
  obtain ⟨_, _, rfl⟩ := mergeModel_eq_ok h
  rfl

/-- Where every model was merged, the super types run in no circle. -/
theorem grounded_of_forall₂ (distinct : own.modelNames.Nodup)
    (merged : List.Forall₂ (fun u m => ∃ known, mergeModel own.models [] u known = .ok m)
      own.models s.models) : WellFounded fun base name => s.Lists name base := by
  have listed : ∀ {base name}, s.Lists name base → Listed own.models base name := by
    intro base name ⟨m, found, hb⟩
    have names : ∀ m u, (∃ known, mergeModel own.models [] u known = .ok m) →
        (m.name == name) = (u.name == name) := by
      intro m u ⟨_, ok⟩
      rw [name_mergeModel ok]
    obtain ⟨u, found', _, ok⟩ := forall₂_find? merged.flip names found
    obtain ⟨_, _, rfl⟩ := mergeModel_eq_ok ok
    exact ⟨u, found', hb⟩
  refine ⟨fun name => Subrelation.accessible (fun h => listed h) ?_⟩
  cases found : findModel? own.models name with
  | none =>
    refine Acc.intro _ ?_
    intro base ⟨u, found', _⟩
    rw [found] at found'
    cases found'
  | some u =>
    obtain ⟨m, _, known, ok⟩ := forall₂_exists_right merged (mem_of_findModel? found)
    rw [← name_of_findModel? found]
    exact acc_of_mergeModel distinct ok

/-- Models that were merged one by one, each from the empty path, are merged as a whole. -/
theorem merges_of_forall₂ (distinct : own.modelNames.Nodup)
    (merged : List.Forall₂ (fun u m => ∃ known, mergeModel own.models [] u known = .ok m)
      own.models s.models) : Merges own s := by
  refine ⟨distinct, merged.imp ?_, grounded_of_forall₂ distinct merged⟩
  intro u m ⟨known, ok⟩
  obtain ⟨inherited, bases_ok, rfl⟩ := mergeModel_eq_ok ok
  obtain ⟨bases, all, rfl⟩ := mergeBases_eq_ok bases_ok
  refine ⟨bases, all.imp ?_, rfl⟩
  -- the super type merges to one result, here below `u` as in its own declaration
  intro name base ⟨v, found, below⟩
  have names : ∀ v m, (∃ known, mergeModel own.models [] v known = .ok m) →
      (v.name == name) = (m.name == name) := by
    intro v m ⟨_, ok⟩
    rw [name_mergeModel ok]
  obtain ⟨base', found', known', alone⟩ := forall₂_find? merged names found
  rw [mergeModel_unique below alone]
  exact found'

end Merged

theorem merges_of_mergeDeclaration {decls merged : List Declaration}
    (distinct : ((modelsOf decls).map (·.name)).Nodup)
    (all : List.Forall₂
      (fun decl decl' => mergeDeclaration (modelsOf decls) decl = .ok decl') decls merged) :
    Merges ⟨decls⟩ ⟨merged⟩ := by
  have members := (List.forall₂_and_left decls merged).2 ⟨fun decl (h : decl ∈ decls) => h, all⟩
  exact merges_of_forall₂ distinct
    (forall₂_filterMap members fun _ _ h => mergeDeclaration_rel distinct h.1 h.2)

/-- **A document that resolves is merged.** -/
theorem merges_of_ofDocument {d : Document} {s : Schema} (h : ofDocument d = .ok s)
    (plain : d.flattened = false) :
    ∃ own : Schema,
      List.Forall₂ d.registry.ResolvesModel (modelsOf d.declarations) own.models ∧
      Merges own s := by
  obtain ⟨decls, resolved, distinct, rest⟩ := ofDocument_eq_ok_iff.1 h
  rw [plain] at rest
  obtain ⟨merged, all, rfl⟩ := rest
  exact ⟨⟨decls⟩, Registry.resolvesModels resolved, merges_of_mergeDeclaration distinct all⟩

/-! ## §5. Merged models -/

theorem model?_of_mem {s : Schema} {m : Model} (distinct : s.modelNames.Nodup)
    (h : m ∈ s.models) : s.model? m.name = some m :=
  findModel?_of_mem distinct h

namespace Merges

variable {own s : Schema}

/-- The own model of a merged one. -/
theorem exists_own (h : Merges own s) {m : Model} (hm : m ∈ s.models) :
    ∃ u ∈ own.models, ∃ bases,
      List.Forall₂ (fun name base => s.model? name = some base) u.superTypes bases ∧
      m = u.withInherited (Inherited.ofBases u bases) :=
  forall₂_exists_left h.models hm

theorem modelNames_eq (h : Merges own s) : s.modelNames = own.modelNames := by
  have names : List.Forall₂ (fun a b : String => a = b) own.modelNames s.modelNames := by
    unfold modelNames
    rw [List.forall₂_map_left_iff, List.forall₂_map_right_iff]
    refine h.models.imp ?_
    intro u m ⟨_, _, merged⟩
    rw [merged]
    rfl
  exact (List.forall₂_eq_eq_eq ▸ names : own.modelNames = s.modelNames).symm

theorem modelNames_nodup (h : Merges own s) : s.modelNames.Nodup :=
  h.modelNames_eq ▸ h.distinct

/-- **No model is above itself.** -/
theorem not_below_self (h : Merges own s) (name : String) : ¬ s.Below name name := by
  intro circle
  exact h.grounded.transGen.irrefl.irrefl name (Relation.transGen_swap.2 circle)

theorem not_listed_self (h : Merges own s) {m : Model} (hm : m ∈ s.models) :
    m.name ∉ m.superTypes := by
  intro listed
  have found := model?_of_mem h.modelNames_nodup hm
  exact h.not_below_self m.name (Relation.TransGen.single ((lists_iff found).2 listed))

/-- A super type that a model lists is a model, and the model has all its field names. -/
theorem fieldNames_of_lists (h : Merges own s) {m : Model} {base : String} (hm : m ∈ s.models)
    (listed : base ∈ m.superTypes) :
    ∃ b, s.model? base = some b ∧ ∀ name ∈ b.fieldNames, name ∈ m.fieldNames := by
  obtain ⟨u, _, bases, found, rfl⟩ := h.exists_own hm
  obtain ⟨b, hb, hbase⟩ := forall₂_exists_right found listed
  refine ⟨b, hbase, ?_⟩
  intro name hname
  exact (mem_fieldNames_withInherited u bases name).2 (Or.inr ⟨b, hb, hname⟩)

/-- A model has the field names of all models above it. -/
theorem fieldNames_of_path (h : Merges own s) {lower upper : String} {m top : Model}
    (path : Relation.ReflTransGen s.Lists lower upper) (hm : s.model? lower = some m)
    (htop : s.model? upper = some top) {name : String} (hname : name ∈ top.fieldNames) :
    name ∈ m.fieldNames := by
  induction path using Relation.ReflTransGen.head_induction_on generalizing m with
  | refl =>
    rw [hm] at htop
    cases htop
    exact hname
  | head step _ ih =>
    obtain ⟨b, hb, names⟩ :=
      h.fieldNames_of_lists (mem_of_findModel? hm) ((lists_iff hm).1 step)
    exact names name (ih hb)

/-- **What all own fields satisfy, all merged fields satisfy**, if being inherited from one of the
    models does not change it.  The induction goes up the super types, from which a model has the
    fields that are not its own. -/
theorem forall_fields_via (h : Merges own s) {Q : Field → Prop}
    (ownFields : ∀ u ∈ own.models, ∀ f ∈ u.fields, Q f)
    (via : ∀ f, ∀ base ∈ s.models, Q f → Q (f.inheritedVia base.name)) {m : Model}
    (hm : m ∈ s.models) : ∀ f ∈ m.fields, Q f := by
  have found := model?_of_mem h.modelNames_nodup hm
  generalize m.name = name at found
  induction name using h.grounded.induction generalizing m with
  | h name ih =>
    intro f hf
    obtain ⟨u, hu, bases, hbases, rfl⟩ := h.exists_own hm
    rcases List.mem_append.1 hf with inherited | declared
    · rcases Inherited.exists_of_mem_foldl_absorb inherited with none | ⟨base, hbase, g, hg, rfl⟩
      · cases none
      · obtain ⟨baseName, listed, hbaseName⟩ := forall₂_exists_left hbases hbase
        have lists : s.Lists name baseName := (lists_iff found).2 listed
        have known := mem_of_findModel? hbaseName
        exact via g base known (ih baseName lists known hbaseName g hg)
    · exact ownFields u hu f declared

theorem forall_fields (h : Merges own s) {Q : Field → Prop}
    (ownFields : ∀ u ∈ own.models, ∀ f ∈ u.fields, Q f)
    (via : ∀ f base, Q f → Q (f.inheritedVia base)) {m : Model} (hm : m ∈ s.models) :
    ∀ f ∈ m.fields, Q f :=
  h.forall_fields_via ownFields (fun f base _ => via f base.name) hm

end Merges

/-- A merged model goes back to a declaration of the document. -/
theorem exists_declared {d : Document} {s : Schema} (h : ofDocument d = .ok s)
    (plain : d.flattened = false) {m : Model} (hm : m ∈ s.models) :
    ∃ declared ∈ modelsOf d.declarations, ∃ u bases, d.registry.ResolvesModel declared u ∧
      List.Forall₂ (fun name base => s.model? name = some base) u.superTypes bases ∧
      m = u.withInherited (Inherited.ofBases u bases) := by
  obtain ⟨own, resolved, merges⟩ := merges_of_ofDocument h plain
  obtain ⟨u, hu, bases, found, same⟩ := merges.exists_own hm
  obtain ⟨declared, member, resolves⟩ := forall₂_exists_left resolved hu
  exact ⟨declared, member, u, bases, resolves, found, same⟩

/-- What holds of the name and the super types of every declared model holds of those of every
    merged model. -/
theorem forall_models_of_ofDocument {d : Document} {s : Schema} (h : ofDocument d = .ok s)
    (plain : d.flattened = false) {P : String → List String → Prop}
    (declared : ∀ u ∈ modelsOf d.declarations, P u.name u.superTypes) :
    ∀ m ∈ s.models, P m.name m.superTypes := by
  intro m hm
  obtain ⟨u, hu, own, _, resolves, _, rfl⟩ := exists_declared h plain hm
  show P own.name own.superTypes
  rw [resolves.name_eq, resolves.superTypes_eq]
  exact declared u hu

/-- A declaration of the document goes to the merged model of its name. -/
theorem exists_merged {d : Document} {s : Schema} (h : ofDocument d = .ok s)
    (plain : d.flattened = false) {declared : Model}
    (hdeclared : declared ∈ modelsOf d.declarations) :
    ∃ u bases, d.registry.ResolvesModel declared u ∧
      List.Forall₂ (fun name base => s.model? name = some base) u.superTypes bases ∧
      s.model? declared.name = some (u.withInherited (Inherited.ofBases u bases)) := by
  obtain ⟨own, resolved, merges⟩ := merges_of_ofDocument h plain
  obtain ⟨u, hu, resolves⟩ := forall₂_exists_right resolved hdeclared
  obtain ⟨m, hm, bases, found, rfl⟩ := forall₂_exists_right merges.models hu
  refine ⟨u, bases, resolves, found, ?_⟩
  rw [← resolves.name_eq]
  exact model?_of_mem merges.modelNames_nodup hm

/-- The schema has the models that the document declares. -/
theorem modelNames_eq_declared {d : Document} {s : Schema} (h : ofDocument d = .ok s)
    (plain : d.flattened = false) : s.modelNames = d.modelNames := by
  obtain ⟨own, resolved, merges⟩ := merges_of_ofDocument h plain
  rw [merges.modelNames_eq]
  exact Registry.modelNames_of_resolves resolved

/-- What a document says of super types holds of its schema. -/
theorem lists_of_extends {d : Document} {s : Schema} (h : ofDocument d = .ok s)
    (plain : d.flattened = false) {name base : String} (ext : d.Extends name base) :
    s.Lists name base := by
  obtain ⟨declared, hdeclared, rfl, listed⟩ := ext
  obtain ⟨u, bases, resolves, _, isModel⟩ := exists_merged h plain hdeclared
  rw [← resolves.superTypes_eq] at listed
  exact ⟨_, isModel, listed⟩

/-- No two models of a resolved document have one name. -/
theorem modelNames_nodup_of_ofDocument {d : Document} {s : Schema} (h : ofDocument d = .ok s) :
    s.modelNames.Nodup := by
  cases plain : d.flattened with
  | false =>
    obtain ⟨own, _, merges⟩ := merges_of_ofDocument h plain
    exact merges.modelNames_nodup
  | true =>
    obtain ⟨decls, _, distinct, rest⟩ := ofDocument_eq_ok_iff.1 h
    rw [plain] at rest
    obtain ⟨_, rfl⟩ := rest
    exact distinct

/-- The fields of a model that its declaration does not have: each is marked as inherited, and no
    other field of the model has its name. -/
theorem exists_split_inherited {d : Document} {s : Schema} (h : ofDocument d = .ok s)
    (plain : d.flattened = false) {declared m : Model}
    (hdeclared : declared ∈ modelsOf d.declarations) (hm : m ∈ s.models)
    (same : m.name = declared.name) {f : Field} (hf : f ∈ m.fields)
    (undeclared : f.name ∉ declared.fieldNames) :
    f.inheritedFrom.isSome = true ∧ ∃ before after, m.fields = before ++ f :: after ∧
      ∀ g ∈ before ++ after, f.name ≠ g.name := by
  obtain ⟨u, bases, resolves, _, isModel⟩ := exists_merged h plain hdeclared
  rw [← same, model?_of_mem (modelNames_nodup_of_ofDocument h) hm] at isModel
  cases isModel
  rw [← resolves.fieldNames_eq] at undeclared
  exact exists_split_of_undeclared hf undeclared

end Schema

end DelegateSchema
