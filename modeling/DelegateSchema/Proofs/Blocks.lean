/-
  DelegateSchema.Proofs.Blocks — the models of a build and their blocks.

  A build that succeeds has asked all its questions of one memory, and the memory it leaves
  answers each of them again as it did then.  So every block can be described under the fixed
  answers of the final memory, whatever was compiled before it: `build_eq_ok` replaces the run by
  its answers once and for all, and `exists_block` and `exists_model` tie the concrete models to
  the blocks of the output, in both directions.
-/
import DelegateSchema.Proofs.Passes
import DelegateSchema.Proofs.Resolution
import DelegateSchema.Target.Handle

namespace DelegateSchema

open Identifier (Memory)

namespace Target

/-- The model blocks of a target schema, in order. -/
def Schema.modelBlocks (s : Schema) : List ModelBlock :=
  s.blocks.filterMap (Block.content? .model)

theorem Schema.findModel?_eq (s : Schema) (name : String) :
    s.findModel? name = s.modelBlocks.find? (·.name == name) := by
  unfold Schema.findModel? Schema.modelBlocks
  induction s.blocks with
  | nil => rfl
  | cons block rest ih =>
    cases block with
    | model b =>
      rw [List.findSome?_cons, List.filterMap_cons]
      show _ = (b :: rest.filterMap (Block.content? .model)).find? _
      by_cases here : b.name = name
      · simp [here]
      · rw [List.find?_cons_of_neg (by simpa using here), ← ih]
        simp [here]
    | datasource b => exact ih
    | generator b => exact ih
    | enum b => exact ih

end Target

namespace Job

variable {j : Job} {shortOf : String → String}

/-- The models that have a block. -/
def concreteModels (j : Job) : List Model :=
  j.schema.models.filter fun m => !m.isAbstract

theorem mem_concreteModels {m : Model} :
    m ∈ j.concreteModels ↔ m ∈ j.schema.models ∧ m.isAbstract = false := by
  unfold concreteModels
  rw [List.mem_filter, Bool.not_eq_true']

/-! ## §1. One model -/

theorem compileModel_eq_ok {m : Model} {block : Target.ModelBlock}
    (h : (j.compileModel m).answer shortOf = .ok block) :
    ∃ start, j.ownBlock m = .ok start ∧
      (j.completeBlock m start).answer shortOf = .ok block := by
  unfold compileModel at h
  rw [Compile.answer_bind, Compile.answer_ofExcept] at h
  exact bind_ok_iff.1 h

theorem completeBlock_physical {m : Model} {start block : Target.ModelBlock}
    (physical : j.mode = .physical)
    (h : (j.completeBlock m start).answer shortOf = .ok block) :
    block = { start with fields := start.fields ++ (j.links m).answer shortOf } := by
  unfold completeBlock at h
  rw [physical] at h
  simp only [Compile.answer_bind, Compile.answer_lift, Compile.answer_pure] at h
  exact (Except.ok.inj h).symm

theorem completeBlock_logical {m : Model} {start block : Target.ModelBlock}
    (logical : j.mode = .logical)
    (h : (j.completeBlock m start).answer shortOf = .ok block) :
    ∃ widened, (j.widen m start).answer shortOf = .ok widened ∧
      block = (j.nameRelations m widened).answer shortOf := by
  unfold completeBlock at h
  rw [logical] at h
  simp only [Compile.answer_bind, Compile.answer_lift] at h
  obtain ⟨widened, ok, h⟩ := bind_ok_iff.1 h
  exact ⟨widened, ok, (Except.ok.inj h).symm⟩

theorem name_compileModel {m : Model} {block : Target.ModelBlock}
    (h : (j.compileModel m).answer shortOf = .ok block) : block.name = m.name := by
  obtain ⟨start, own, rest⟩ := compileModel_eq_ok h
  rw [← (ownBlock_eq_ok own).1]
  cases mode : j.mode with
  | physical => rw [completeBlock_physical mode rest]
  | logical =>
    obtain ⟨widened, ok, rfl⟩ := completeBlock_logical mode rest
    rw [name_nameRelations, name_widen ok]

/-! ## §2. All models -/

theorem compileDeclaration_rel {decl : Declaration} {block : Option Target.Block}
    (h : (j.compileDeclaration decl).answer shortOf = .ok block) :
    Option.Rel (fun m b => (j.compileModel m).answer shortOf = .ok b)
      (decl.model?.filter fun m => !m.isAbstract) (block.bind (Target.Block.content? .model)) := by
  cases decl with
  | model m =>
    cases abstract : m.isAbstract with
    | true =>
      simp only [compileDeclaration, abstract, if_true, Compile.answer_pure] at h
      cases h
      simp only [Declaration.model?, Option.filter, abstract, Bool.not_true]
      exact Option.Rel.none
    | false =>
      simp only [compileDeclaration, abstract, Bool.false_eq_true, if_false,
        Compile.answer_bind] at h
      obtain ⟨b, ok, same⟩ := bind_ok_iff.1 h
      cases same
      simp only [Declaration.model?, Option.filter, abstract, Bool.not_false, if_true]
      exact Option.Rel.some ok
  | datasource e | generator e | enum e =>
    unfold compileDeclaration at h
    rw [Compile.answer_bind] at h
    obtain ⟨_, _, same⟩ := bind_ok_iff.1 h
    cases same
    exact Option.Rel.none

/-- **The concrete models and the model blocks correspond one by one.** -/
theorem forall₂_modelBlocks {out : Target.Schema} (h : j.compile.answer shortOf = .ok out) :
    List.Forall₂ (fun m b => (j.compileModel m).answer shortOf = .ok b) j.concreteModels
      out.modelBlocks := by
  unfold compile at h
  rw [Compile.answer_bind, Compile.answer_mapM] at h
  obtain ⟨blocks, all, h⟩ := bind_ok_iff.1 h
  cases h
  unfold concreteModels Schema.models modelsOf Target.Schema.modelBlocks
  rw [List.filter_filterMap, List.filterMap_filterMap]
  exact forall₂_filterMap (mapM_ok_iff.1 all) fun _ _ ok => compileDeclaration_rel ok

/-! ## §3. Whole builds -/

section Build

variable {memory memory' : Memory} {out : Target.Schema}

/-- **The memory that a build leaves answers all its questions as they were answered.** -/
theorem build_eq_ok (h : j.build memory = (.ok out, memory')) :
    j.compile.answer memory'.shorten = .ok out := by
  have answers := Identifier.Asking.run_fst j.compile.run memory
  have run : j.compile.run.run memory = (.ok out, memory') := h
  rw [run] at answers
  exact answers.symm

/-- A concrete model has a block under its name. -/
theorem exists_block (h : j.build memory = (.ok out, memory'))
    (distinct : j.schema.modelNames.Nodup) {m : Model} (hm : m ∈ j.schema.models)
    (concrete : m.isAbstract = false) :
    ∃ block, out.findModel? m.name = some block ∧
      (j.compileModel m).answer memory'.shorten = .ok block := by
  -- leaving out the abstract models keeps names distinct
  have distinct' : (j.concreteModels.map (·.name)).Nodup :=
    distinct.sublist (List.filter_sublist.map _)
  have found := findModel?_of_mem distinct' (mem_concreteModels.2 ⟨hm, concrete⟩)
  rw [Target.Schema.findModel?_eq]
  refine forall₂_find? (forall₂_modelBlocks (build_eq_ok h)) ?_ found
  intro m b ok
  rw [name_compileModel ok]

/-- A block is the block of the concrete model of its name. -/
theorem exists_model (h : j.build memory = (.ok out, memory')) {name : String}
    {block : Target.ModelBlock} (found : out.findModel? name = some block) :
    ∃ m ∈ j.schema.models, m.isAbstract = false ∧ m.name = name ∧
      (j.compileModel m).answer memory'.shorten = .ok block := by
  rw [Target.Schema.findModel?_eq] at found
  have names : ∀ b m, (j.compileModel m).answer memory'.shorten = .ok b →
      (b.name == name) = (m.name == name) := by
    intro b m ok
    rw [name_compileModel ok]
  obtain ⟨m, hm, ok⟩ := forall₂_find? (forall₂_modelBlocks (build_eq_ok h)).flip names found
  obtain ⟨known, concrete⟩ := mem_concreteModels.1 (List.mem_of_find?_eq_some hm)
  exact ⟨m, known, concrete, by simpa using List.find?_some hm, ok⟩

/-- Where names are distinct, a block found under the name of a model is the block of that
    model. -/
theorem compileModel_of_findModel? (h : j.build memory = (.ok out, memory'))
    (distinct : j.schema.modelNames.Nodup) {m : Model} (hm : m ∈ j.schema.models)
    {block : Target.ModelBlock} (found : out.findModel? m.name = some block) :
    m.isAbstract = false ∧ (j.compileModel m).answer memory'.shorten = .ok block := by
  obtain ⟨m', hm', concrete, same, ok⟩ := exists_model h found
  have isModel := Schema.model?_of_mem distinct hm
  rw [← same, Schema.model?_of_mem distinct hm'] at isModel
  cases isModel
  exact ⟨concrete, ok⟩

end Build

end Job

/-! ## §4. Trying a document -/

/-- Whether a document builds in a mode, with identifiers of the standard length, to a schema that
    passes a test. -/
def Document.buildsTo (d : Document) (mode : Mode) (test : Job → Target.Schema → Bool) : Bool :=
  match Schema.ofDocument d with
  | .ok schema =>
    let j : Job := { schema, mode }
    match j.build (Memory.ofLength Identifier.standardLength) with
    | (.ok out, _) => test j out
    | (.error _, _) => false
  | .error _ => false

theorem Document.exists_build {d : Document} {mode : Mode} {test : Job → Target.Schema → Bool}
    (h : d.buildsTo mode test = true) :
    ∃ j out memory', Schema.ofDocument d = .ok j.schema ∧ j.mode = mode ∧
      j.build (Memory.ofLength Identifier.standardLength) = (.ok out, memory') ∧
      test j out = true := by
  unfold Document.buildsTo at h
  split at h
  next schema resolved =>
    dsimp only at h
    split at h
    next out memory' built => exact ⟨_, out, memory', resolved, rfl, built, h⟩
    next => cases h
  next => cases h

end DelegateSchema
