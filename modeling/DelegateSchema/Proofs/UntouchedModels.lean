/-
  DelegateSchema.Proofs.UntouchedModels — models that no delegate touches.

  The mode of a compilation shows in six places: which fields are emitted, which defaults are
  dropped, which defaults get a stand-in, the links, the widened relations and the names of
  inherited relations.  Each of them asks the schema for delegates around the model.  Where there
  are none, all six are idle, and the model compiles the same way in both modes, without a single
  question to the memory of identifiers.

  Main results:
    * `Schema.untouched_iff` — the walks through the schema tell whether a model is untouched,
    * `toTargetField_untouched` — its fields compile alike,
    * `completeBlock_untouched` — nothing is added to its block,
    * `untouched_compiles_alike` — so it compiles alike.
-/
import DelegateSchema.Proofs.Widening
import Mathlib.Data.List.Nodup

namespace DelegateSchema

open Identifier (Memory)

/-! ## §1. No delegates around -/

/-- No delegate touches a model. -/
structure Schema.Untouched (s : Schema) (m : Model) : Prop where
  /-- No model above it is a delegate. -/
  above : ∀ base ∈ s.models, s.Below m.name base.name → base.isDelegate = false
  /-- If it is a delegate itself, no concrete model lists it. -/
  below : m.isDelegate = true → ∀ c ∈ s.models, m.name ∈ c.superTypes → c.isAbstract = true
  /-- No delegate that a field points to has a concrete model below it. -/
  beside : ∀ f ∈ m.fields, ∀ target, s.relationTarget? f = some target →
    target.isDelegate = true → ∀ c ∈ s.models, s.Below c.name target.name → c.isAbstract = true
  /-- No default depends on the current user. -/
  defaults : ∀ f ∈ m.fields, ∀ a ∈ f.attributes, a.isAuthDefault = false

/-- The same, found out by walking through the schema. -/
def Schema.untouches (s : Schema) (m : Model) : Bool :=
  (s.ancestors m).all (fun base => !base.isDelegate) &&
  (!m.isDelegate || (s.directSubtypes m).isEmpty) &&
  m.fields.all fun f =>
    ((s.relationTarget? f).all fun target =>
      !target.isDelegate || (s.descendants target).isEmpty) &&
    f.attributes.all fun a => !a.isAuthDefault

namespace Schema

theorem Untouched.no_delegate_above {s : Schema} {m base : Model} (h : s.Untouched m)
    (known : s.model? base.name = some base) (below : s.Below m.name base.name) :
    ¬ base.isDelegate = true := by
  rw [h.above base (mem_of_findModel? known) below]
  exact Bool.false_ne_true

variable {s : Schema} {m : Model} (distinct : s.modelNames.Nodup) (hm : m ∈ s.models)
include distinct

theorem descendants_eq_nil_iff (target : Model) : s.descendants target = [] ↔
    ∀ c ∈ s.models, s.Below c.name target.name → c.isAbstract = true := by
  have members : ∀ c ∈ s.models, c ∈ s.descendants target ↔
      c.isAbstract = false ∧ s.Below c.name target.name := by
    intro c hc
    rw [mem_descendants (model?_of_mem distinct hc)]
    exact and_iff_right hc
  rw [List.eq_nil_iff_forall_not_mem]
  constructor
  · intro none c hc below
    rw [← Bool.not_eq_false]
    exact fun concrete => none c ((members c hc).2 ⟨concrete, below⟩)
  · intro all c hc
    have known : c ∈ s.models := List.mem_of_mem_filter hc
    obtain ⟨concrete, below⟩ := (members c known).1 hc
    rw [all c known below] at concrete
    cases concrete

include hm

theorem all_ancestors_iff : (s.ancestors m).all (fun base => !base.isDelegate) = true ↔
    ∀ base ∈ s.models, s.Below m.name base.name → base.isDelegate = false := by
  have found := model?_of_mem distinct hm
  simp only [List.all_eq_true, Bool.not_eq_true', mem_ancestors found]
  constructor
  · intro all base hbase below
    exact all base ⟨model?_of_mem distinct hbase, below⟩
  · intro all base ⟨hbase, below⟩
    exact all base (mem_of_findModel? hbase) below

theorem directSubtypes_eq_nil_iff (irreflexive : m.name ∉ m.superTypes) :
    s.directSubtypes m = [] ↔ ∀ c ∈ s.models, m.name ∈ c.superTypes → c.isAbstract = true := by
  unfold directSubtypes
  rw [List.filter_eq_nil_iff]
  refine forall₂_congr fun c hc => ?_
  by_cases listed : m.name ∈ c.superTypes
  · have other : c.name ≠ m.name := by
      intro same
      rw [List.inj_on_of_nodup_map distinct hc hm same] at listed
      exact irreflexive listed
    simp [listed, other]
  · simp [listed]

/-- **The walks tell whether a model is untouched.** -/
theorem untouched_iff : s.untouches m = true ↔ s.Untouched m := by
  -- the search for subtypes leaves out the model itself, which would be a delegate above itself
  have irreflexive : (∀ base ∈ s.models, s.Below m.name base.name → base.isDelegate = false) →
      m.isDelegate = true → m.name ∉ m.superTypes := by
    intro above delegate listed
    have lists := (lists_iff (model?_of_mem distinct hm)).2 listed
    rw [above m hm (Relation.TransGen.single lists)] at delegate
    cases delegate
  unfold untouches
  simp only [Bool.and_eq_true, all_ancestors_iff distinct hm, List.all_eq_true, Option.all_eq_true,
    Bool.or_eq_true, Bool.not_eq_true', List.isEmpty_iff, descendants_eq_nil_iff distinct]
  constructor
  · intro ⟨⟨above, below⟩, fields⟩
    refine ⟨above, ?_, ?_, fun f hf => (fields f hf).2⟩
    · intro delegate
      have none := below.resolve_left (by simp [delegate])
      exact (directSubtypes_eq_nil_iff distinct hm (irreflexive above delegate)).1 none
    · intro f hf target points delegate
      exact ((fields f hf).1 target points).resolve_left (by simp [delegate])
  · intro ⟨above, below, beside, defaults⟩
    refine ⟨⟨above, ?_⟩, fun f hf => ⟨?_, defaults f hf⟩⟩
    · cases delegate : m.isDelegate with
      | false => exact Or.inl rfl
      | true =>
        have all := below delegate
        exact Or.inr ((directSubtypes_eq_nil_iff distinct hm (irreflexive above delegate)).2 all)
    · intro target points
      cases delegate : target.isDelegate with
      | false => exact Or.inl rfl
      | true => exact Or.inr (beside f hf target points delegate)

end Schema

/-! ## §2. Idle passes -/

theorem mapM_congr_left {M : Type → Type} [Monad M] [LawfulMonad M] {α β : Type} {f g : α → M β}
    {xs : List α} (same : ∀ x ∈ xs, f x = g x) : xs.mapM f = xs.mapM g := by
  induction xs with
  | nil => rfl
  | cons x xs ih =>
    rw [List.mapM_cons, List.mapM_cons, same x List.mem_cons_self,
      ih fun y hy => same y (List.mem_cons_of_mem _ hy)]

theorem foldlM_eq_pure {M : Type → Type} [Monad M] [LawfulMonad M] {α β : Type} {f : β → α → M β}
    {xs : List α} (idle : ∀ x ∈ xs, ∀ b, f b x = pure b) (b : β) : xs.foldlM f b = pure b := by
  induction xs with
  | nil => rfl
  | cons x xs ih =>
    rw [List.foldlM_cons, idle x List.mem_cons_self, pure_bind]
    exact ih fun y hy => idle y (List.mem_cons_of_mem _ hy)

namespace Job

/-- Passes that find nothing to do add nothing to a block, and ask nothing. -/
theorem completeBlock_idle {j : Job} {m : Model} (links : j.links m = pure [])
    (widened : ∀ f ∈ m.fields, j.widenedTo m f = [])
    (opposite : ∀ f ∈ m.fields, j.inheritedOpposite? m f = none) (block : Target.ModelBlock) :
    j.completeBlock m block = pure block := by
  unfold completeBlock
  split
  next =>
    rw [links]
    show (pure { block with fields := block.fields ++ [] } : Compile _) = _
    rw [List.append_nil]
  next =>
    have widens : j.widen m block = pure block := by
      refine foldlM_eq_pure (fun f hf b => ?_) block
      unfold widenField
      rw [widened f hf]
      rfl
    have names : j.nameRelations m block = pure block := by
      refine foldlM_eq_pure (fun f hf b => ?_) block
      unfold nameInherited
      rw [opposite f hf]
    rw [widens, pure_bind, names]
    rfl

section Idle

variable {j : Job} {m : Model} (distinct : j.schema.modelNames.Nodup) (hm : m ∈ j.schema.models)
  (untouched : j.schema.Untouched m)
include distinct hm untouched

theorem storingDelegate?_untouched (f : Field) : j.schema.storingDelegate? m f = none := by
  rw [← Option.not_isSome_iff_eq_none,
    Schema.storingDelegate?_isSome_iff (Schema.model?_of_mem distinct hm)]
  intro ⟨_, base, known, below, delegate, _⟩
  exact untouched.no_delegate_above known below delegate

theorem emits_untouched (f : Field) : j.emits m f = true := by
  unfold emits
  rw [storingDelegate?_untouched distinct hm untouched]
  cases j.mode with
  | physical => rfl
  | logical => rfl

theorem filter_emits_untouched : m.fields.filter (j.emits m) = m.fields :=
  List.filter_eq_self.2 fun f _ => emits_untouched distinct hm untouched f

theorem keepsAttribute_untouched (f : Field) (a : Attribute) :
    j.keepsAttribute m f a = (a.isTarget && !a.isAuthDefault) := by
  unfold keepsAttribute dropsDefault
  rw [storingDelegate?_untouched distinct hm untouched]
  simp

omit distinct hm in
theorem standIns_untouched {f : Field} (hf : f ∈ m.fields) : j.standIns f = .ok [] := by
  have none : f.attributes.any Attribute.isAuthDefault = false :=
    List.any_eq_false.2 fun a ha => by simp [untouched.defaults f hf a ha]
  unfold standIns
  rw [none, Bool.and_false]
  rfl

/-- The links of a model lead to subtypes and to delegates that it lists. -/
theorem links_untouched : j.links m = pure [] := by
  have down : j.linksToSubtypes m = pure [] := by
    unfold linksToSubtypes
    split
    next delegate =>
      have none : j.schema.directSubtypes m = [] := by
        refine List.filter_eq_nil_iff.2 fun c hc subtype => ?_
        simp only [Bool.and_eq_true, Bool.not_eq_true', List.contains_iff_mem] at subtype
        rw [untouched.below delegate c hc subtype.2] at subtype
        cases subtype.1.1
      rw [none]
      rfl
    next => rfl
  have bases : j.delegateBases m = [] := by
    refine List.filter_eq_nil_iff.2 fun base hbase delegate => ?_
    obtain ⟨name, listed, found⟩ := List.mem_filterMap.1 hbase
    have lists := (Schema.lists_iff (Schema.model?_of_mem distinct hm)).2 listed
    rw [← name_of_findModel? found] at lists found
    exact untouched.no_delegate_above found (Relation.TransGen.single lists) delegate
  unfold links linksToBases
  rw [down, bases]
  rfl

omit hm in
theorem widenedTo_untouched {f : Field} (hf : f ∈ m.fields) : j.widenedTo m f = [] := by
  rw [List.eq_nil_iff_forall_not_mem]
  intro concrete widened
  obtain ⟨_, target, points, delegate, known, isConcrete, below⟩ :=
    (mem_widenedTo distinct f concrete).1 widened
  rw [untouched.beside f hf target points delegate concrete known below] at isConcrete
  cases isConcrete

/-- The other side of an inherited relation is looked for from a delegate above. -/
theorem inheritedOpposite?_untouched (f : Field) : j.inheritedOpposite? m f = none := by
  have nowhere : j.schema.findUp? m f.name = none := by
    rw [Option.eq_none_iff_forall_ne_some]
    intro ⟨base, g⟩ found
    obtain ⟨delegate, _, known, below⟩ :=
      Schema.findUp?_spec (Schema.model?_of_mem distinct hm) found
    exact untouched.no_delegate_above known below delegate
  unfold inheritedOpposite?
  rw [nowhere]
  cases j.schema.relationTarget? f with
  | none => rfl
  | some _ =>
    cases f.inheritedFrom with
    | none => rfl
    | some _ => rfl

/-- **Nothing is added to the block of an untouched model**, and nothing is asked. -/
theorem completeBlock_untouched (block : Target.ModelBlock) :
    j.completeBlock m block = pure block :=
  completeBlock_idle (links_untouched distinct hm untouched)
    (fun _ hf => widenedTo_untouched distinct untouched hf)
    (fun f _ => inheritedOpposite?_untouched distinct hm untouched f) block

/-! ## §3. Both modes -/

theorem toTargetField_untouched (mode : Mode) {f : Field} (hf : f ∈ m.fields) :
    ({ j with mode } : Job).toTargetField m f = j.toTargetField m f := by
  -- the two jobs have one schema, so what was said of any job holds of both
  have keeps : ({ j with mode } : Job).keepsAttribute m f = j.keepsAttribute m f := by
    funext a
    rw [keepsAttribute_untouched (j := { j with mode }) distinct hm untouched,
      keepsAttribute_untouched distinct hm untouched]
  unfold toTargetField
  rw [keeps, standIns_untouched (j := { j with mode }) untouched hf,
    standIns_untouched untouched hf]

theorem ownBlock_untouched (mode : Mode) :
    ({ j with mode } : Job).ownBlock m = j.ownBlock m := by
  unfold ownBlock
  rw [filter_emits_untouched (j := { j with mode }) distinct hm untouched,
    filter_emits_untouched distinct hm untouched,
    mapM_congr_left fun f hf => toTargetField_untouched distinct hm untouched mode hf]

theorem compileModel_untouched (mode : Mode) :
    ({ j with mode } : Job).compileModel m = Compile.ofExcept (j.ownBlock m) := by
  have idle : ({ j with mode } : Job).completeBlock m = pure :=
    funext fun block =>
      completeBlock_untouched (j := { j with mode }) distinct hm untouched block
  unfold compileModel
  rw [ownBlock_untouched distinct hm untouched mode, idle, bind_pure]

end Idle

/-- **A model that no delegate touches compiles alike in both modes.**  Compiling it has one
    outcome, nothing for an abstract model and a block or a fault for any other, whatever the mode
    and whatever the memory of identifiers, and leaves the memory as it was.  A block holds, by
    name and type, all fields of the model in order and no others. -/
theorem untouched_compiles_alike {d : Document} {j : Job}
    (resolved : Schema.ofDocument d = .ok j.schema) {m : Model} (hm : m ∈ j.schema.models)
    (untouched : j.schema.Untouched m) :
    ∃ result, (∀ mode memory,
        (({ j with mode } : Job).compileDeclaration (.model m)).run.run memory =
          (result, memory)) ∧
      (m.isAbstract = true → result = .ok none) ∧
      (m.isAbstract = false → (∃ fault, result = .error fault) ∨
        ∃ block, result = .ok (some (.model block)) ∧ block.name = m.name ∧
          block.signatures.map some = m.fields.map fun f => f.signatureAs? f.name) := by
  have distinct := Schema.modelNames_nodup_of_ofDocument resolved
  cases abstract : m.isAbstract with
  | true =>
    refine ⟨.ok none, ?_, fun _ => rfl, fun concrete => absurd concrete.symm Bool.false_ne_true⟩
    intro mode memory
    simp only [compileDeclaration, abstract, if_true]
    rfl
  | false =>
    refine ⟨(j.ownBlock m).map fun block => some (.model block), ?_,
      fun isAbstract => absurd isAbstract Bool.false_ne_true, ?_⟩
    · intro mode memory
      simp only [compileDeclaration, abstract, Bool.false_eq_true, if_false,
        compileModel_untouched distinct hm untouched mode]
      cases j.ownBlock m with
      | error fault => rfl
      | ok block => rfl
    · intro _
      cases own : j.ownBlock m with
      | error fault => exact Or.inl ⟨fault, rfl⟩
      | ok block =>
        obtain ⟨name, fields⟩ := ownBlock_eq_ok own
        rw [filter_emits_untouched distinct hm untouched] at fields
        refine Or.inr ⟨block, rfl, name, ?_⟩
        unfold Target.ModelBlock.signatures
        rw [List.map_map]
        exact signatures_of_forall₂ (mapM_ok_iff.1 fields)

/-- Videos are assets, and there are no drafts yet.  Notes are stamped with their time; they have a
    draft and a video, and may get subtypes later. -/
def notebook : Document where
  declarations := [
    .model {
      name := "Stamped"
      isAbstract := true
      fields := [{ name := "time", type := { scalar := some "DateTime" } }] },
    .model {
      name := "Asset"
      isDelegate := true
      fields := [
        { name := "id", type := { scalar := some "Int" }, attributes := [{ name := "@id" }] }] },
    .model { name := "Video", superTypes := ["Asset"] },
    .model {
      name := "Draft"
      isDelegate := true
      fields := [
        { name := "id", type := { scalar := some "Int" }, attributes := [{ name := "@id" }] }] },
    .model {
      name := "Note"
      isDelegate := true
      superTypes := ["Stamped"]
      fields := [
        { name := "id", type := { scalar := some "Int" }, attributes := [{ name := "@id" }] },
        { name := "draftId", type := { scalar := some "Int" } },
        { name := "draft"
          type := { reference := some "Draft" }
          attributes := [
            { name := "@relation"
              args := [keyList "fields" "draftId", keyList "references" "id"] }] },
        { name := "videoId", type := { scalar := some "Int" } },
        { name := "video"
          type := { reference := some "Video" }
          attributes := [
            { name := "@relation"
              args := [keyList "fields" "videoId", keyList "references" "id"] }] }] }]

/-- The block of a note is the same in both modes. -/
theorem note_compiles_alike :
    ∃ (j : Job) (note : Model) (block : Target.ModelBlock),
      Schema.ofDocument notebook = .ok j.schema ∧ note ∈ j.schema.models ∧ note.name = "Note" ∧
      j.schema.Untouched note ∧
      block.fieldNames = ["time", "id", "draftId", "draft", "videoId", "video"] ∧
      ∀ mode memory, (({ j with mode } : Job).compileDeclaration (.model note)).run.run memory =
        (.ok (some (.model block)), memory) := by
  have builds : notebook.buildsTo .physical (fun j _ => j.schema.models.any fun note =>
      note.name == "Note" && !note.isAbstract && j.schema.untouches note &&
      ((j.compileDeclaration (.model note)).run.run
        (Memory.ofLength Identifier.standardLength)).1.toOption.any fun block? => block?.any
          fun block => (block.content? .model).any fun block =>
            block.fieldNames == ["time", "id", "draftId", "draft", "videoId", "video"]) = true := by
    decide +kernel
  obtain ⟨j, _, _, resolved, _, _, test⟩ := Document.exists_build builds
  simp only [List.any_eq_true, Bool.and_eq_true, beq_iff_eq, Bool.not_eq_true'] at test
  obtain ⟨note, hnote, ⟨⟨isNote, concrete⟩, walks⟩, compiled⟩ := test
  have distinct := Schema.modelNames_nodup_of_ofDocument resolved
  have untouched := (Schema.untouched_iff distinct hnote).1 walks
  obtain ⟨result, alike, _, outcome⟩ := untouched_compiles_alike resolved hnote untouched
  have here := alike j.mode (Memory.ofLength Identifier.standardLength)
  change (j.compileDeclaration (.model note)).run.run _ = _ at here
  rw [here] at compiled
  rcases outcome concrete with ⟨fault, rfl⟩ | ⟨block, rfl, _, _⟩
  · cases compiled
  · exact ⟨j, note, block, resolved, hnote, isNote, untouched, beq_iff_eq.1 compiled, alike⟩

end Job

end DelegateSchema
