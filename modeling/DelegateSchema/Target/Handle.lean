/-
  DelegateSchema.Target.Handle — building a target schema block by block.

  Adding a block answers a handle: the place of the block, with its kind in the handle's type.
  A handle is only as good as the schema it is used with.  In a schema where that place holds a
  block of another kind, or nothing, it finds nothing.
-/
import DelegateSchema.Target.Basic

namespace DelegateSchema.Target

/-! ## §1. Kinds of blocks -/

/-- The kinds of blocks; a view is a model block. -/
inductive BlockKind where
  | datasource
  | generator
  | model
  | enum
  deriving DecidableEq

/-- What a block of a kind holds. -/
abbrev BlockKind.Content : BlockKind → Type
  | .datasource | .generator => ConfigBlock
  | .model => ModelBlock
  | .enum => EnumBlock

/-- The block of a kind with the given content. -/
def Block.ofContent : (kind : BlockKind) → kind.Content → Block
  | .datasource, b => .datasource b
  | .generator, b => .generator b
  | .model, b => .model b
  | .enum, b => .enum b

/-- The content of a block, if the block is of the given kind. -/
def Block.content? : (kind : BlockKind) → Block → Option kind.Content
  | .datasource, .datasource b => some b
  | .generator, .generator b => some b
  | .model, .model b => some b
  | .enum, .enum b => some b
  | _, _ => none

theorem Block.content?_ofContent (kind : BlockKind) (content : kind.Content) :
    (Block.ofContent kind content).content? kind = some content := by
  cases kind <;> rfl

/-! ## §2. Handles -/

/-- The place of a block of the given kind. -/
structure Handle (kind : BlockKind) where
  place : Nat
  deriving DecidableEq

namespace Schema

/-- Adds a block at the end, and answers its handle. -/
def add (s : Schema) {kind : BlockKind} (content : kind.Content) : Handle kind × Schema :=
  (⟨s.blocks.length⟩, ⟨s.blocks ++ [Block.ofContent kind content]⟩)

/-- What a handle denotes. -/
def get? (s : Schema) {kind : BlockKind} (handle : Handle kind) : Option kind.Content :=
  s.blocks[handle.place]?.bind (Block.content? kind)

/-- Changes the block that a handle denotes; answers its new content beside the new schema. -/
def update? (s : Schema) {kind : BlockKind} (handle : Handle kind)
    (edit : kind.Content → kind.Content) : Option (kind.Content × Schema) :=
  (s.get? handle).map fun content =>
    (edit content, ⟨s.blocks.set handle.place (Block.ofContent kind (edit content))⟩)

/-- The first model or view of the given name. -/
def findModel? (s : Schema) (name : String) : Option ModelBlock :=
  s.blocks.findSome? fun b =>
    match b with
    | .model m => if m.name == name then some m else none
    | _ => none

end Schema

end DelegateSchema.Target
