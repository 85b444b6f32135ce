/-
  DelegateSchema.Proofs.Handles — what a handle denotes.

  A handle is a place in a list of blocks, and its kind is checked only when it is used.  While a
  schema is built, blocks are added at the end and changed in place; so a handle keeps denoting the
  block it was issued for, of the kind it was issued for, and what is done through it shows in no
  other block.

  Main results:
    * `Session.inv` — after any additions and edits, in any order, the blocks are those that the
      issued handles stand for, one for each of them,
    * `Session.get?_eq`, `Session.update?_eq` — so no use of an issued handle fails,
    * `Editing.through_eq` — a program that edits a block through its handle does what it does to the
      block alone.
-/
import DelegateSchema.Proofs.Identifiers
import DelegateSchema.Target.Handle

namespace DelegateSchema

namespace Target

/-! ## §1. One use of a handle -/

theorem Block.eq_ofContent {kind : BlockKind} {block : Block} {content : kind.Content}
    (h : block.content? kind = some content) : block = Block.ofContent kind content := by
  cases kind <;> cases block <;> cases h <;> rfl

namespace Schema

variable {s : Schema} {kind : BlockKind} {handle : Handle kind} {content : kind.Content}

/-- The schema with another content at the place of a handle. -/
def put (s : Schema) (handle : Handle kind) (content : kind.Content) : Schema :=
  ⟨s.blocks.set handle.place (Block.ofContent kind content)⟩

theorem get?_eq_some_iff :
    s.get? handle = some content ↔ s.blocks[handle.place]? = some (Block.ofContent kind content) := by
  unfold get?
  rw [Option.bind_eq_some_iff]
  constructor
  · intro ⟨block, found, isContent⟩
    rw [found, Block.eq_ofContent isContent]
  · intro found
    exact ⟨_, found, Block.content?_ofContent kind content⟩

/-- A new handle denotes the new block. -/
theorem get?_add (s : Schema) (content : kind.Content) :
    (s.add content).2.get? (s.add content).1 = some content := by
  rw [get?_eq_some_iff]
  exact List.getElem?_concat_length

/-- An edit through a handle that denotes a block does not fail. -/
theorem update?_eq (known : s.get? handle = some content) (change : kind.Content → kind.Content) :
    s.update? handle change = some (change content, s.put handle (change content)) := by
  unfold update?
  rw [known]
  rfl

theorem get?_put (known : s.get? handle = some content) (content' : kind.Content) :
    (s.put handle content').get? handle = some content' := by
  rw [get?_eq_some_iff] at known ⊢
  obtain ⟨within, _⟩ := List.getElem?_eq_some_iff.1 known
  exact List.getElem?_set_self within

theorem getElem?_put_other (s : Schema) (handle : Handle kind) (content : kind.Content)
    {place : Nat} (other : place ≠ handle.place) :
    (s.put handle content).blocks[place]? = s.blocks[place]? :=
  List.getElem?_set_ne other.symm

theorem put_put (s : Schema) (handle : Handle kind) (content content' : kind.Content) :
    (s.put handle content).put handle content' = s.put handle content' :=
  congrArg Schema.mk (List.set_set _)

theorem put_of_get? (known : s.get? handle = some content) : s.put handle content = s := by
  obtain ⟨within, same⟩ := List.getElem?_eq_some_iff.1 (get?_eq_some_iff.1 known)
  unfold put
  rw [← same, List.set_getElem_self]

/-- Changing the block that was added last is adding the changed one. -/
theorem put_add (s : Schema) (content content' : kind.Content) :
    (s.add content).2.put (s.add content).1 content' = (s.add content').2 := by
  show Schema.mk ((s.blocks ++ [_]).set s.blocks.length _) = Schema.mk (s.blocks ++ [_])
  rw [List.set_append_right _ _ (Nat.le_refl _), Nat.sub_self]
  rfl

end Schema

/-! ## §2. Sessions -/

/-- A handle that was issued, with the content that its block should have by now: the one it was
    issued for, changed by the edits made through this handle and by no others. -/
structure Issued where
  kind : BlockKind
  handle : Handle kind
  content : kind.Content

/-- The block that an issued handle stands for. -/
def Issued.block (i : Issued) : Block :=
  Block.ofContent i.kind i.content

/-- The schemas that can be built from nothing by adding blocks and by editing them through the
    handles issued on the way, together with these handles in the order of their issue. -/
inductive Session : Schema → List Issued → Prop where
  | start : Session {} []
  | add {s : Schema} {issued : List Issued} {kind : BlockKind} (content : kind.Content) :
    Session s issued → Session (s.add content).2 (issued ++ [⟨kind, (s.add content).1, content⟩])
  | edit {s s' : Schema} {before after : List Issued} {kind : BlockKind} {handle : Handle kind}
      {content content' : kind.Content} {change : kind.Content → kind.Content} :
    Session s (before ++ ⟨kind, handle, content⟩ :: after) →
    s.update? handle change = some (content', s') →
      Session s' (before ++ ⟨kind, handle, change content⟩ :: after)

/-- Where the places of the handles count up, the place of a handle is the number of those issued
    before it. -/
theorem place_eq_length {before after : List Issued} {i : Issued}
    (places : (before ++ i :: after).map (·.handle.place) =
      List.range (before ++ i :: after).length) : i.handle.place = before.length := by
  have here := congrArg (·[before.length]?) places
  simpa using here

namespace Session

variable {s : Schema} {issued : List Issued}

/-- **The blocks are those that the issued handles stand for**, in the order of their issue, and each
    handle has the place of its block. -/
theorem inv (session : Session s issued) :
    s.blocks = issued.map Issued.block ∧
      issued.map (·.handle.place) = List.range issued.length := by
  induction session with
  | start => exact ⟨rfl, rfl⟩
  | @add s issued kind content _ ih =>
    obtain ⟨blocks, places⟩ := ih
    have place : (s.add content).1.place = issued.length := by
      show s.blocks.length = issued.length
      rw [blocks, List.length_map]
    constructor
    · show s.blocks ++ [Block.ofContent kind content] = _
      rw [blocks, List.map_append]
      rfl
    · rw [List.map_append, List.length_append, List.length_singleton, List.range_succ, places]
      exact congrArg (List.range issued.length ++ [·]) place
  | @edit s s' before after kind handle content content' change _ edited ih =>
    obtain ⟨blocks, places⟩ := ih
    have place := place_eq_length places
    have known : s.get? handle = some content := by
      rw [Schema.get?_eq_some_iff, blocks, place]
      simp [Issued.block]
    rw [Schema.update?_eq known] at edited
    cases edited
    constructor
    · -- the place of the handle is that of its entry, so setting the one changes the other
      show s.blocks.set handle.place _ = _
      rw [blocks, place, List.map_append, List.map_append, List.map_cons, List.map_cons,
        ← List.length_map (f := Issued.block), List.set_append_right _ _ (Nat.le_refl _),
        Nat.sub_self, List.set_cons_zero]
      rfl
    · simpa using places

theorem length_eq (session : Session s issued) : s.blocks.length = issued.length := by
  rw [session.inv.1, List.length_map]

theorem places_nodup (session : Session s issued) : (issued.map (·.handle.place)).Nodup := by
  rw [session.inv.2]
  exact List.nodup_range

/-- **An issued handle denotes its own block.** -/
theorem get?_eq (session : Session s issued) {i : Issued} (hi : i ∈ issued) :
    s.get? i.handle = some i.content := by
  obtain ⟨before, after, rfl⟩ := List.append_of_mem hi
  obtain ⟨blocks, places⟩ := session.inv
  rw [Schema.get?_eq_some_iff, blocks, place_eq_length places]
  simp [Issued.block]

/-- **An edit through an issued handle does not fail**, and every other block stays as it is. -/
theorem update?_eq (session : Session s issued) {i : Issued} (hi : i ∈ issued)
    (change : i.kind.Content → i.kind.Content) :
    ∃ s', s.update? i.handle change = some (change i.content, s') ∧
      s'.get? i.handle = some (change i.content) ∧
      ∀ place, place ≠ i.handle.place → s'.blocks[place]? = s.blocks[place]? := by
  have known := session.get?_eq hi
  refine ⟨_, Schema.update?_eq known change, Schema.get?_put known _, ?_⟩
  intro place other
  exact Schema.getElem?_put_other s i.handle _ other

end Session

end Target

/-! ## §3. Programs that edit a block -/

open Identifier (Asking)
open Target (BlockKind Handle)

/-- A program that edits one block.  It may look at the block and change it, ask for identifiers,
    and fail. -/
inductive Editing (kind : BlockKind) (α : Type) where
  | done (value : α)
  | fail (fault : CompileError)
  | ask (name : String) (next : String → Editing kind α)
  /-- Looks at the block. -/
  | view (next : kind.Content → Editing kind α)
  /-- Changes the block. -/
  | edit (change : kind.Content → kind.Content) (next : Editing kind α)

namespace Editing

variable {kind : BlockKind} {α β : Type}

/-- Goes on with the value of a program. -/
def bind : Editing kind α → (α → Editing kind β) → Editing kind β
  | .done value, f => f value
  | .fail fault, _ => .fail fault
  | .ask name next, f => .ask name fun short => (next short).bind f
  | .view next, f => .view fun content => (next content).bind f
  | .edit change next, f => .edit change (next.bind f)

instance : Monad (Editing kind) where
  pure := .done
  bind := bind

theorem bind_done (x : Editing kind α) : x.bind .done = x := by
  induction x with
  | done value => rfl
  | fail fault => rfl
  | ask name next ih => exact congrArg (ask name) (funext ih)
  | view next ih => exact congrArg view (funext ih)
  | edit f next ih => exact congrArg (edit f) ih

theorem bind_bind {γ : Type} (x : Editing kind α) (f : α → Editing kind β) (g : β → Editing kind γ) :
    (x.bind f).bind g = x.bind fun a => (f a).bind g := by
  induction x with
  | done value => rfl
  | fail fault => rfl
  | ask name next ih => exact congrArg (ask name) (funext ih)
  | view next ih => exact congrArg view (funext ih)
  | edit h next ih => exact congrArg (edit h) ih

instance : LawfulMonad (Editing kind) :=
  LawfulMonad.mk' (Editing kind) bind_done (fun _ _ => rfl) bind_bind

/-- A step that leaves the block alone. -/
def ofExcept : Except CompileError α → Editing kind α
  | .ok value => .done value
  | .error fault => .fail fault

/-- Questions that leave the block alone. -/
def ofAsking : Asking α → Editing kind α
  | .done value => .done value
  | .ask name next => .ask name fun short => ofAsking (next short)

/-- The block as it is now. -/
def look : Editing kind kind.Content := .view .done

/-- Changes the block. -/
def change (f : kind.Content → kind.Content) : Editing kind Unit := .edit f (.done ())

/-- What the program does to a block of its own. -/
def on : Editing kind α → kind.Content → Compile (α × kind.Content)
  | .done value, content => pure (value, content)
  | .fail fault, _ => throw fault
  | .ask name next, content => ExceptT.mk (.ask name fun short => ((next short).on content).run)
  | .view next, content => (next content).on content
  | .edit f next, content => next.on (f content)

/-- What the program does to a schema, when it reaches the block through a handle; nothing when the
    handle finds no block of its kind. -/
def through (handle : Handle kind) : Editing kind α → Target.Schema →
    Compile (Option (α × Target.Schema))
  | .done value, s => pure (some (value, s))
  | .fail fault, _ => throw fault
  | .ask name next, s => ExceptT.mk (.ask name fun short => ((next short).through handle s).run)
  | .view next, s =>
    match s.get? handle with
    | some content => (next content).through handle s
    | none => pure none
  | .edit f next, s =>
    match s.update? handle f with
    | some (_, s) => next.through handle s
    | none => pure none

/-- **A handle that denotes a block is as good as the block.**  The program never misses the block,
    and it changes the block at the place of the handle and nothing else. -/
theorem through_eq {s : Target.Schema} {handle : Handle kind} {content : kind.Content}
    (known : s.get? handle = some content) (x : Editing kind α) :
    x.through handle s = (fun r => some (r.1, s.put handle r.2)) <$> x.on content := by
  -- the schema changes at every edit, so the induction is over all schemas with the block
  induction x generalizing s content with
  | done value =>
    show pure (some (value, s)) = pure (some (value, s.put handle content))
    rw [Target.Schema.put_of_get? known]
  | fail fault => rfl
  | ask name next ih =>
    exact congrArg (Asking.ask name) (funext fun short => ih short known)
  | view next ih =>
    unfold through
    rw [known]
    exact ih content known
  | edit f next ih =>
    unfold through
    rw [Target.Schema.update?_eq known]
    show next.through handle (s.put handle (f content)) = _
    rw [ih (Target.Schema.get?_put known (f content))]
    simp only [Target.Schema.put_put]
    rfl

end Editing

end DelegateSchema
