/-
  DelegateSchema.Compile.Build — whole schemas in the target language.

  Declarations are compiled in source order, each to at most one block; abstract models give
  none.  The identifiers asked for on the way are answered from one memory.
-/
import DelegateSchema.Compile.Config
import DelegateSchema.Compile.Links
import DelegateSchema.Compile.Widening

namespace DelegateSchema.Job

open Identifier (Memory)

/-- The block of a model before links and widening. -/
def ownBlock (j : Job) (m : Model) : Except CompileError Target.ModelBlock := do
  let fields ← (m.fields.filter (j.emits m)).mapM (j.toTargetField m)
  let attributes ← targetAttributes m.attributes
  return {
    name := m.name
    isView := m.isView
    fields
    attributes
    docs := attributeDocs m.attributes ++ m.comments }

/-- What the mode adds to the block of a model. -/
def completeBlock (j : Job) (m : Model) (block : Target.ModelBlock) : Compile Target.ModelBlock :=
  match j.mode with
  | .physical => do
    let links ← ExceptT.lift (j.links m)
    return { block with fields := block.fields ++ links }
  | .logical => do
    let block ← j.widen m block
    ExceptT.lift (j.nameRelations m block)

/-- The block of a model. -/
def compileModel (j : Job) (m : Model) : Compile Target.ModelBlock := do
  let block ← Compile.ofExcept (j.ownBlock m)
  j.completeBlock m block

/-- The block of a declaration, if it has one. -/
def compileDeclaration (j : Job) : Declaration → Compile (Option Target.Block)
  | .datasource b => do return some (.datasource (← Compile.ofExcept b.toTarget))
  | .generator b => do return some (.generator (← Compile.ofExcept (j.toTargetGenerator b)))
  | .enum e => do return some (.enum (← Compile.ofExcept e.toTarget))
  | .model m => if m.isAbstract then return none else do return some (.model (← j.compileModel m))

/-- The target schema. -/
def compile (j : Job) : Compile Target.Schema := do
  let blocks ← j.schema.declarations.mapM j.compileDeclaration
  return ⟨blocks.filterMap id⟩

/-- Compiles with a memory of identifiers, which remembers what was asked for also when the
    compilation fails. -/
def build (j : Job) (memory : Memory) : Except CompileError Target.Schema × Memory :=
  j.compile.run.run memory

end DelegateSchema.Job
