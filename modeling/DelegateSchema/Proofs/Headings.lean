/-
  DelegateSchema.Proofs.Headings — the first lines of blocks.

  A declaration asks for a block of its kind and name; only abstract models ask for none.  Whatever
  the passes do to a block, they leave its heading alone, so the headings of a build can be read off
  its declarations.

  Main results:
    * `heading_compileDeclaration` — a declaration gets the heading that it asks for,
    * `headings_build` — and so do all declarations, in their order.
-/
import DelegateSchema.Proofs.Blocks

namespace DelegateSchema

open Identifier (Memory)

/-! ## §1. Headings -/

/-- What the first line of a block says. -/
structure Target.Heading where
  kind : Target.BlockKind
  name : String
  isView : Bool := false
  deriving DecidableEq

/-- The heading of a block. -/
def Target.Block.heading : Target.Block → Target.Heading
  | .datasource b => { kind := .datasource, name := b.name }
  | .generator b => { kind := .generator, name := b.name }
  | .enum b => { kind := .enum, name := b.name }
  | .model b => { kind := .model, name := b.name, isView := b.isView }

/-- The heading that a declaration asks for; abstract models ask for none. -/
def Declaration.heading? : Declaration → Option Target.Heading
  | .datasource b => some { kind := .datasource, name := b.name }
  | .generator b => some { kind := .generator, name := b.name }
  | .enum e => some { kind := .enum, name := e.name }
  | .model m =>
    if m.isAbstract then none else some { kind := .model, name := m.name, isView := m.isView }

/-! ## §2. What compilation leaves alone -/

theorem ConfigBlock.name_toTarget {b : ConfigBlock} {b' : Target.ConfigBlock}
    (h : b.toTarget = .ok b') : b'.name = b.name := by
  obtain ⟨settings, _, h⟩ := bind_ok_iff.1 h
  cases h
  rfl

theorem Target.ConfigBlock.name_set (b : Target.ConfigBlock) (name text : String) :
    (b.set name text).name = b.name := by
  unfold Target.ConfigBlock.set
  split
  next => rfl
  next => rfl

theorem name_checkPreviewFeatures {b b' : Target.ConfigBlock} (h : checkPreviewFeatures b = .ok b') :
    b'.name = b.name := by
  unfold checkPreviewFeatures at h
  dsimp only at h
  split at h
  next =>
    cases h
    rfl
  next =>
    cases h
    exact b.name_set _ _
  next => cases h

theorem EnumDecl.name_toTarget {e : EnumDecl} {b : Target.EnumBlock} (h : e.toTarget = .ok b) :
    b.name = e.name := by
  obtain ⟨fields, _, h⟩ := bind_ok_iff.1 h
  obtain ⟨attributes, _, h⟩ := bind_ok_iff.1 h
  cases h
  rfl

namespace Job

variable {j : Job} {m : Model} {shortOf : String → String}

theorem name_toTargetGenerator {b : ConfigBlock} {b' : Target.ConfigBlock}
    (h : j.toTargetGenerator b = .ok b') : b'.name = b.name := by
  obtain ⟨start, started, h⟩ := bind_ok_iff.1 h
  rw [← ConfigBlock.name_toTarget started]
  split at h
  next =>
    dsimp only at h
    split at h
    next =>
      obtain ⟨checked, ok, h⟩ := bind_ok_iff.1 h
      rw [← name_checkPreviewFeatures ok]
      split at h <;> cases h
      · exact checked.name_set _ _
      · rfl
    next =>
      rw [pure_bind] at h
      split at h <;> cases h
      · exact start.name_set _ _
      · rfl
  next =>
    cases h
    rfl

theorem isView_ownBlock {b : Target.ModelBlock} (h : j.ownBlock m = .ok b) :
    b.isView = m.isView := by
  obtain ⟨fields, _, h⟩ := bind_ok_iff.1 h
  obtain ⟨attributes, _, h⟩ := bind_ok_iff.1 h
  cases h
  rfl

/-- No pass turns a model into a view, or a view into a model. -/
theorem isView_compileModel {block : Target.ModelBlock}
    (h : (j.compileModel m).answer shortOf = .ok block) : block.isView = m.isView := by
  obtain ⟨start, own, rest⟩ := compileModel_eq_ok h
  rw [← isView_ownBlock own]
  cases mode : j.mode with
  | physical => rw [completeBlock_physical mode rest]
  | logical =>
    obtain ⟨widened, ok, rfl⟩ := completeBlock_logical mode rest
    rw [view_nameRelations (·.isView) (fun _ _ _ => rfl)]
    rw [answer_widen] at ok
    refine foldlM_ok_inv (P := fun c => c.isView = start.isView) ok rfl ?_
    intro step _ c c' same ok
    obtain ⟨_, _, _, _, _, rfl, _⟩ := widenFor_eq_ok ok
    exact same

/-- The block of a declaration has the heading that the declaration asks for. -/
theorem heading_compileDeclaration {decl : Declaration} {block : Option Target.Block}
    (h : (j.compileDeclaration decl).answer shortOf = .ok block) :
    block.map Target.Block.heading = decl.heading? := by
  cases decl with
  | datasource b =>
    simp only [compileDeclaration, Compile.answer_bind, Compile.answer_ofExcept] at h
    obtain ⟨content, ok, h⟩ := bind_ok_iff.1 h
    cases h
    simp [Target.Block.heading, Declaration.heading?, ConfigBlock.name_toTarget ok]
  | generator b =>
    simp only [compileDeclaration, Compile.answer_bind, Compile.answer_ofExcept] at h
    obtain ⟨content, ok, h⟩ := bind_ok_iff.1 h
    cases h
    simp [Target.Block.heading, Declaration.heading?, name_toTargetGenerator ok]
  | enum e =>
    simp only [compileDeclaration, Compile.answer_bind, Compile.answer_ofExcept] at h
    obtain ⟨content, ok, h⟩ := bind_ok_iff.1 h
    cases h
    simp [Target.Block.heading, Declaration.heading?, EnumDecl.name_toTarget ok]
  | model m =>
    cases abstract : m.isAbstract with
    | true =>
      simp only [compileDeclaration, abstract, if_true, Compile.answer_pure] at h
      cases h
      simp [Declaration.heading?, abstract]
    | false =>
      simp only [compileDeclaration, abstract, Bool.false_eq_true, if_false,
        Compile.answer_bind] at h
      obtain ⟨content, ok, h⟩ := bind_ok_iff.1 h
      cases h
      simp [Target.Block.heading, Declaration.heading?, abstract, name_compileModel ok,
        isView_compileModel ok]

theorem headings_of_forall₂ {decls : List Declaration} {blocks : List (Option Target.Block)}
    (h : List.Forall₂ (fun decl block => (j.compileDeclaration decl).answer shortOf = .ok block)
      decls blocks) :
    (blocks.filterMap id).map Target.Block.heading = decls.filterMap Declaration.heading? := by
  induction h with
  | nil => rfl
  | @cons decl block decls blocks first _ ih =>
    rw [List.filterMap_cons, List.filterMap_cons, ← heading_compileDeclaration first, ← ih]
    cases block with
    | none => rfl
    | some block => rfl

/-- **A build has one block for each declaration that asks for one**, in their order. -/
theorem headings_build {memory : Memory} {out : Target.Schema}
    (built : (j.build memory).1 = .ok out) :
    out.blocks.map Target.Block.heading =
      j.schema.declarations.filterMap Declaration.heading? := by
  have ok := build_eq_ok (Prod.ext built rfl)
  unfold compile at ok
  rw [Compile.answer_bind, Compile.answer_mapM] at ok
  obtain ⟨blocks, all, ok⟩ := bind_ok_iff.1 ok
  cases ok
  exact headings_of_forall₂ (mapM_ok_iff.1 all)

end Job

end DelegateSchema
