/-
  DelegateSchema.Proofs.InPlace — building a schema block by block, through handles.

  A build can be told as it is carried out on one target schema: every declaration adds its block,
  empty or nearly so, and fills it through the handle that it got, field by field and pass by pass.
  The programs of §2 and §3 say what each pass does to its block, and in which order it looks,
  changes and asks.  They do what the compilation of `Compile.Build` does, so the blocks that are
  there stay as they are, and no handle ever finds the wrong block or none.

  Main results:
    * `on_editModel` — the edits of a model make the block that it compiles to,
    * `place_eq` — a declaration adds its block at the end and changes no other,
    * `placeAll_eq` — building in place is compiling,
    * `blocks_are_final` — so blocks come out once, in order, and stay as they are.
-/
import DelegateSchema.Proofs.Handles
import DelegateSchema.Proofs.Headings

namespace DelegateSchema

open Identifier (Asking Memory)

namespace Target

theorem ModelBlock.foldl_addField (b : ModelBlock) (fields : List Field) :
    fields.foldl addField b = { b with fields := b.fields ++ fields } := by
  induction fields generalizing b with
  | nil => simp
  | cons f fields ih => simp [ih, addField]

theorem EnumBlock.foldl_addField (b : EnumBlock) (fields : List EnumField) :
    fields.foldl addField b = { b with fields := b.fields ++ fields } := by
  induction fields generalizing b with
  | nil => simp
  | cons f fields ih => simp [ih, addField]

end Target

/-! ## §1. What a program does to a block -/

namespace Compile

variable {α β : Type}

theorem ofExcept_bind (x : Except CompileError α) (f : α → Except CompileError β) :
    ofExcept (x >>= f) = ofExcept x >>= fun a => ofExcept (f a) := by
  cases x with
  | ok a => rfl
  | error fault => rfl

theorem ofExcept_mapM (f : α → Except CompileError β) (xs : List α) :
    ofExcept (xs.mapM f) = xs.mapM fun x => ofExcept (f x) := by
  induction xs with
  | nil => rfl
  | cons x xs ih =>
    rw [List.mapM_cons, List.mapM_cons, ofExcept_bind]
    refine bind_congr fun y => ?_
    rw [ofExcept_bind, ih]
    rfl

theorem lift_bind (x : Asking α) (f : α → Asking β) :
    (ExceptT.lift (x >>= f) : Compile β) = ExceptT.lift x >>= fun a => ExceptT.lift (f a) := by
  refine ExceptT.ext ?_
  rw [ExceptT.run_bind, ExceptT.run_lift, ExceptT.run_lift, map_bind, bind_map_left]
  rfl

theorem lift_mapM (f : α → Asking β) (xs : List α) :
    (ExceptT.lift (xs.mapM f) : Compile (List β)) = xs.mapM fun x => ExceptT.lift (f x) := by
  induction xs with
  | nil => rfl
  | cons x xs ih =>
    rw [List.mapM_cons, List.mapM_cons, lift_bind]
    refine bind_congr fun y => ?_
    rw [lift_bind, ih]
    rfl

theorem lift_foldlM (f : β → α → Asking β) (b : β) (xs : List α) :
    (ExceptT.lift (xs.foldlM f b) : Compile β) = xs.foldlM (fun b x => ExceptT.lift (f b x)) b := by
  induction xs generalizing b with
  | nil => rfl
  | cons x xs ih =>
    rw [List.foldlM_cons, List.foldlM_cons, lift_bind]
    exact bind_congr fun b => ih b

/-- Making things and adding each of them at once is making all of them first. -/
theorem foldlM_push {σ : Type} (push : σ → β → σ) (f : α → Compile β) (xs : List α) (start : σ) :
    xs.foldlM (fun b x => do return push b (← f x)) start =
      do return (← xs.mapM f).foldl push start := by
  induction xs generalizing start with
  | nil => simp
  | cons x xs ih =>
    simp only [List.foldlM_cons, List.mapM_cons, bind_assoc, pure_bind, ih, List.foldl_cons]

end Compile

namespace Editing

variable {kind : Target.BlockKind} {α β : Type} {content : kind.Content}

@[simp]
theorem on_pure (value : α) : (pure value : Editing kind α).on content = pure (value, content) :=
  rfl

@[simp]
theorem on_look : (look : Editing kind _).on content = pure (content, content) := rfl

@[simp]
theorem on_change (f : kind.Content → kind.Content) :
    (change f).on content = pure ((), f content) := rfl

@[simp]
theorem on_bind (x : Editing kind α) (f : α → Editing kind β) :
    (x >>= f).on content = x.on content >>= fun r => (f r.1).on r.2 := by
  show (x.bind f).on content = _
  induction x generalizing content with
  | done value => rfl
  | fail fault => rfl
  | ask name next ih => exact congrArg (Asking.ask name) (funext fun short => ih short)
  | view next ih => exact ih content
  | edit g next ih => exact ih

@[simp]
theorem on_ofExcept (x : Except CompileError α) :
    (ofExcept x : Editing kind α).on content =
      Compile.ofExcept x >>= fun value => pure (value, content) := by
  cases x with
  | ok value => rfl
  | error fault => rfl

@[simp]
theorem on_ofAsking (x : Asking α) :
    (ofAsking x : Editing kind α).on content =
      (ExceptT.lift x : Compile α) >>= fun value => pure (value, content) := by
  induction x with
  | done value => rfl
  | ask name next ih => exact congrArg (Asking.ask name) (funext ih)

/-- The program does to every block what `pass` does. -/
def Does (x : Editing kind Unit) (pass : kind.Content → Compile kind.Content) : Prop :=
  ∀ content, x.on content = pass content >>= fun content' => pure ((), content')

theorem Does.seq {x y : Editing kind Unit} {pass pass' : kind.Content → Compile kind.Content}
    (hx : x.Does pass) (hy : y.Does pass') :
    (x >>= fun _ => y).Does fun content => pass content >>= pass' := by
  intro content
  simp only [on_bind, hx content, bind_assoc, pure_bind, hy _]

theorem does_pure : (pure () : Editing kind Unit).Does pure := by
  intro content
  simp

/-- A loop does what each of its rounds does, one after the other. -/
theorem does_forM (xs : List α) {step : α → Editing kind Unit}
    {pass : kind.Content → α → Compile kind.Content}
    (each : ∀ x ∈ xs, (step x).Does fun content => pass content x) :
    (xs.forM step).Does fun content => xs.foldlM pass content := by
  induction xs with
  | nil => exact does_pure
  | cons x xs ih =>
    have rest := ih fun y hy => each y (List.mem_cons_of_mem _ hy)
    exact (each x List.mem_cons_self).seq rest

variable (kind) in
/-- Making something and putting it into the block. -/
theorem does_ofExcept_change (x : Except CompileError α) (put : α → kind.Content → kind.Content) :
    (do change (put (← ofExcept x)) : Editing kind Unit).Does fun content =>
      do return put (← Compile.ofExcept x) content := by
  intro content
  simp only [on_bind, on_ofExcept, on_change, bind_assoc, pure_bind]

variable (kind) in
theorem does_ofAsking_change (x : Asking α) (put : α → kind.Content → kind.Content) :
    (do change (put (← ofAsking x)) : Editing kind Unit).Does fun content =>
      do return put (← (ExceptT.lift x : Compile α)) content := by
  intro content
  simp only [on_bind, on_ofAsking, on_change, bind_assoc, pure_bind]

end Editing

namespace Job

open Editing (ofExcept ofAsking look change)
open Target (ModelBlock)

variable {j : Job} {m : Model}

/-! ## §2. The edits of a model -/

/-- Adds the fields of a model that are emitted. -/
def editFields (j : Job) (m : Model) : Editing .model Unit :=
  (m.fields.filter (j.emits m)).forM fun f => do
    let field ← ofExcept (j.toTargetField m f)
    change (·.addField field)

/-- Adds the attributes and comments of a model. -/
def editAttributes (m : Model) : Editing .model Unit := do
  let attributes ← ofExcept (targetAttributes m.attributes)
  change fun b => { b with
    attributes := b.attributes ++ attributes
    docs := b.docs ++ (attributeDocs m.attributes ++ m.comments) }

/-- Adds the links of a model. -/
def editLinks (j : Job) (m : Model) : Editing .model Unit := do
  (if m.isDelegate then j.schema.directSubtypes m else []).forM fun concrete => do
    let link ← ofAsking (linkToSubtype concrete)
    change (·.addField link)
  (j.delegateBases m).forM fun base => do
    let link ← ofAsking (j.linkToBase m base)
    change (·.addField link)

/-- Adds the copy of a key for a descendant, then the constraints on it; gives its name. -/
def editKey (j : Job) (m concrete : Model) (key : Field) : Editing .model String := do
  let field ← ofExcept (j.toTargetField m key)
  let name ← ofAsking (Asking.identifier (m.name ++ "_" ++ key.name ++ "_" ++ concrete.name))
  let copy := { field with name }.updateAttribute "@unique" (nameConstraint (name ++ "_unique"))
  let constraints := (m.attributesNamed "@@unique").filterMap (copiedConstraint? key.name name)
  change (·.addField copy)
  change fun b => { b with attributes := b.attributes ++ constraints }
  return name

/-- Makes the relation attribute of a widened field; the keys that it needs are added first. -/
def editRelation (j : Job) (m : Model) (f : Field) (concrete : Model) (name : String) :
    Editing .model Target.Attribute :=
  match f.attribute? "@relation" with
  | none => return .of "@relation" [.positional (.string name)]
  | some relation =>
    if (relation.arg? "fields").isNone then ofExcept relation.toTarget
    else do
      let pairs := j.schema.keyPairs m f
      let keys ← (pairs.map (·.1)).mapM (j.editKey m concrete)
      let relationName := ((relation.arg? "name").bind (·.asString?)).getD name
      let constraint : List Target.Arg :=
        if j.schema.namesConstraints then [.named "map" (.string (name ++ "_fk"))] else []
      return .of "@relation" ([.positional (.string relationName),
        .named "fields" (.fieldRefs keys),
        .named "references" (.fieldRefs (pairs.map fun pair => pair.2.name))] ++ constraint)

/-- Adds the field that widens `f` for a descendant, and gives it its relation afterwards. -/
def editWidened (j : Job) (m : Model) (f : Field) (concrete : Model) : Editing .model Unit := do
  let name ← ofAsking (Asking.identifier (m.name ++ "_" ++ f.name ++ "_" ++ concrete.name))
  change (·.addField { name, type := ⟨concrete.name, f.type.array, f.type.optional⟩ })
  let relation ← j.editRelation m f concrete name
  change (·.updateField name (·.addAttribute relation))

/-- Names the relation of a field that is inherited from a delegate and has another side. -/
def editName (j : Job) (m : Model) (f : Field) : Editing .model Unit :=
  match j.inheritedOpposite? m f with
  | none => return ()
  | some (related, opposite) => do
    let block ← look
    if (block.field? f.name).isNone then return ()
    else do
      let name ← ofAsking
        (Asking.identifier (related.name ++ "_" ++ opposite.name ++ "_" ++ m.name))
      change (·.updateField f.name (nameRelation f name))

/-- Adds what the mode asks for. -/
def editCompletion (j : Job) (m : Model) : Editing .model Unit :=
  match j.mode with
  | .physical => j.editLinks m
  | .logical => do
    m.fields.forM fun f => (j.widenedTo m f).forM (j.editWidened m f)
    m.fields.forM (j.editName m)

/-- All edits of a model, from the empty block of its name. -/
def editModel (j : Job) (m : Model) : Editing .model Unit := do
  j.editFields m
  editAttributes m
  j.editCompletion m

theorem does_editFields : (j.editFields m).Does fun b => do
    return { b with fields := b.fields ++
      (← Compile.ofExcept ((m.fields.filter (j.emits m)).mapM (j.toTargetField m))) } := by
  intro b
  have rounds := Editing.does_forM (m.fields.filter (j.emits m)) fun f _ =>
    Editing.does_ofExcept_change .model (j.toTargetField m f) fun field b =>
      b.addField field
  refine (rounds b).trans ?_
  simp only [Compile.foldlM_push ModelBlock.addField, Compile.ofExcept_mapM,
    ModelBlock.foldl_addField]

theorem does_editLinks : (j.editLinks m).Does fun b => do
    return { b with fields := b.fields ++ (← (ExceptT.lift (j.links m) : Compile _)) } := by
  have down := Editing.does_forM
    (if m.isDelegate then j.schema.directSubtypes m else []) fun concrete _ =>
      Editing.does_ofAsking_change .model (linkToSubtype concrete) fun link b =>
        b.addField link
  have up := Editing.does_forM (j.delegateBases m) fun base _ =>
    Editing.does_ofAsking_change .model (j.linkToBase m base) fun link b =>
      b.addField link
  have subtypes : j.linksToSubtypes m =
      (if m.isDelegate then j.schema.directSubtypes m else []).mapM linkToSubtype := by
    unfold linksToSubtypes
    split
    next => rfl
    next => rfl
  intro b
  refine (down.seq up b).trans ?_
  unfold links linksToBases
  simp only [Compile.foldlM_push, Compile.lift_bind, Compile.lift_mapM, subtypes, bind_assoc,
    pure_bind, ModelBlock.foldl_addField, List.append_assoc]
  rfl

theorem on_editKey {concrete : Model} {key : Field} {b : ModelBlock} :
    (j.editKey m concrete key).on b = j.copyKey m concrete key b := by
  unfold editKey copyKey Compile.identifier
  simp only [Editing.on_bind, Editing.on_ofExcept, Editing.on_ofAsking, Editing.on_change,
    Editing.on_pure, bind_assoc, pure_bind]

theorem on_editKeys {concrete : Model} {keys : List Field} {b : ModelBlock} :
    (keys.mapM (j.editKey m concrete)).on b = j.copyKeys m concrete keys b := by
  induction keys generalizing b with
  | nil => rfl
  | cons key keys ih =>
    unfold copyKeys
    simp only [List.mapM_cons, Editing.on_bind, Editing.on_pure, on_editKey, ih]

theorem on_editRelation {f : Field} {concrete : Model} {name : String} {b : ModelBlock} :
    (j.editRelation m f concrete name).on b = j.widenedRelation m f concrete name b := by
  unfold editRelation widenedRelation
  cases f.attribute? "@relation" with
  | none => rfl
  | some relation =>
    dsimp only
    split
    next => exact Editing.on_ofExcept _
    next => simp only [Editing.on_bind, Editing.on_pure, on_editKeys]

theorem does_editWidened {f : Field} {c : Model} :
    (j.editWidened m f c).Does fun b => j.widenFor m f b c := by
  intro b
  unfold editWidened widenFor Compile.identifier
  simp only [Editing.on_bind, Editing.on_ofAsking, Editing.on_change, on_editRelation, bind_assoc,
    pure_bind]

theorem does_editName {f : Field} :
    (j.editName m f).Does fun b => ExceptT.lift (j.nameInherited m b f) := by
  intro b
  unfold editName nameInherited
  cases j.inheritedOpposite? m f with
  | none => rfl
  | some pair =>
    dsimp only
    rw [Editing.on_bind, Editing.on_look, pure_bind]
    split
    next => rfl
    next =>
      simp only [Editing.on_bind, Editing.on_ofAsking, Editing.on_change, Compile.lift_bind,
        bind_assoc, pure_bind]
      rfl

theorem does_editCompletion : (j.editCompletion m).Does (j.completeBlock m) := by
  unfold editCompletion completeBlock
  cases j.mode with
  | physical => exact does_editLinks
  | logical =>
    have widens := Editing.does_forM m.fields fun f _ =>
      Editing.does_forM (j.widenedTo m f) fun c _ =>
        does_editWidened (j := j) (m := m) (f := f) (c := c)
    have names := Editing.does_forM m.fields fun f _ =>
      does_editName (j := j) (m := m) (f := f)
    simp only [← Compile.lift_foldlM] at names
    exact widens.seq names

/-- **The edits of a model make the block that it compiles to.** -/
theorem on_editModel :
    (j.editModel m).on { name := m.name, isView := m.isView } =
      j.compileModel m >>= fun b => pure ((), b) := by
  have attributes : (editAttributes m).Does fun b => do
      let attributes ← Compile.ofExcept (targetAttributes m.attributes)
      return { b with
        attributes := b.attributes ++ attributes
        docs := b.docs ++ (attributeDocs m.attributes ++ m.comments) } :=
    Editing.does_ofExcept_change _ _ _
  refine ((does_editFields.seq (attributes.seq does_editCompletion)) _).trans ?_
  unfold compileModel ownBlock
  simp only [Compile.ofExcept_bind, bind_assoc, pure_bind, List.nil_append]
  rfl

/-! ## §3. Declarations in place -/

/-- Adds the values of an enum one by one, then its attributes and comments. -/
def editEnum (e : EnumDecl) : Editing .enum Unit := do
  e.fields.forM fun f => do
    let value ← ofExcept f.toTarget
    change (·.addField value)
  let attributes ← ofExcept (targetAttributes e.attributes)
  change fun b => { b with
    attributes := b.attributes ++ attributes
    docs := b.docs ++ (attributeDocs e.attributes ++ e.comments) }

/-- Checks the generator of the client and redirects its output; other generators stay. -/
def editGenerator (j : Job) : Editing .generator Unit := do
  let block ← look
  if (block.setting? "provider").map (·.text) == some clientProvider then
    if j.toolVersion.isSome then
      let checked ← ofExcept (checkPreviewFeatures block)
      change fun _ => checked
    match j.clientOutput with
    | some path => change (·.set "output" (Json.quote path))
    | none => return ()

theorem on_editEnum (e : EnumDecl) :
    (editEnum e).on { name := e.name } = Compile.ofExcept e.toTarget >>= fun b => pure ((), b) := by
  have values := Editing.does_forM e.fields fun f _ =>
    Editing.does_ofExcept_change .enum f.toTarget fun value b => b.addField value
  have attributes := Editing.does_ofExcept_change .enum (targetAttributes e.attributes)
    fun attributes b => { b with
      attributes := b.attributes ++ attributes
      docs := b.docs ++ (attributeDocs e.attributes ++ e.comments) }
  refine (values.seq attributes _).trans ?_
  unfold EnumDecl.toTarget
  simp only [Compile.foldlM_push Target.EnumBlock.addField, Target.EnumBlock.foldl_addField,
    Compile.ofExcept_bind, Compile.ofExcept_mapM, bind_assoc, pure_bind, List.nil_append]
  rfl

theorem on_editGenerator (j : Job) (b : ConfigBlock) :
    (Compile.ofExcept b.toTarget >>= fun content => j.editGenerator.on content) =
      Compile.ofExcept (j.toTargetGenerator b) >>= fun content => pure ((), content) := by
  -- a generator starts with its settings, and the edits look at those
  unfold editGenerator toTargetGenerator
  rw [Compile.ofExcept_bind, bind_assoc]
  refine bind_congr fun content => ?_
  rw [Editing.on_bind, Editing.on_look, pure_bind]
  split
  next =>
    cases j.toolVersion.isSome <;> cases j.clientOutput <;>
      cases checkPreviewFeatures content <;> rfl
  next => rfl

/-- Adds a block with a first content, and edits it through its handle; nothing when the handle does
    not find the block. -/
def fill (s : Target.Schema) (kind : Target.BlockKind) (start : kind.Content)
    (x : Editing kind Unit) : Compile (Option Target.Schema) := do
  let (handle, s) := s.add start
  return (← x.through handle s).map (·.2)

/-- Adds the block of a declaration and fills it. -/
def place (j : Job) (s : Target.Schema) : Declaration → Compile (Option Target.Schema)
  | .datasource b => do fill s .datasource (← Compile.ofExcept b.toTarget) (pure ())
  | .generator b => do fill s .generator (← Compile.ofExcept b.toTarget) j.editGenerator
  | .enum e => fill s .enum { name := e.name } (editEnum e)
  | .model m =>
    if m.isAbstract then return some s
    else fill s .model { name := m.name, isView := m.isView } (j.editModel m)

/-- Adds the blocks of declarations one after the other. -/
def placeAll (j : Job) (s : Target.Schema) : List Declaration → Compile (Option Target.Schema)
  | [] => return some s
  | decl :: decls => do
    match ← j.place s decl with
    | some s => j.placeAll s decls
    | none => return none

theorem fill_eq (s : Target.Schema) (kind : Target.BlockKind) (start : kind.Content)
    (x : Editing kind Unit) :
    fill s kind start x =
      x.on start >>= fun r => pure (some ⟨s.blocks ++ [Target.Block.ofContent kind r.2]⟩) := by
  unfold fill
  dsimp only
  rw [Editing.through_eq (s.get?_add start)]
  simp only [map_eq_pure_bind, bind_assoc, pure_bind, Option.map_some, Target.Schema.put_add]
  rfl

/-- **A declaration adds its block at the end.**  The blocks that are there stay as they are, and no
    handle misses its block. -/
theorem place_eq (j : Job) (s : Target.Schema) (decl : Declaration) :
    j.place s decl =
      j.compileDeclaration decl >>= fun block => pure (some ⟨s.blocks ++ block.toList⟩) := by
  cases decl with
  | datasource b =>
    simp only [place, compileDeclaration, fill_eq, Editing.on_pure, bind_assoc, pure_bind]
    rfl
  | generator b =>
    have edited := congrArg (· >>= fun r : Unit × Target.ConfigBlock =>
      pure (some (Target.Schema.mk (s.blocks ++ [.generator r.2])))) (on_editGenerator j b)
    simp only [bind_assoc, pure_bind] at edited
    simp only [place, compileDeclaration, fill_eq, bind_assoc, pure_bind]
    exact edited
  | enum e =>
    simp only [place, compileDeclaration, fill_eq, on_editEnum, bind_assoc, pure_bind]
    rfl
  | model m =>
    simp only [place, compileDeclaration]
    split
    next => simp
    next =>
      simp only [fill_eq, on_editModel, bind_assoc, pure_bind]
      rfl

/-- **Building in place is compiling.** -/
theorem placeAll_eq (j : Job) (s : Target.Schema) (decls : List Declaration) :
    j.placeAll s decls = decls.mapM j.compileDeclaration >>= fun blocks =>
      pure (some ⟨s.blocks ++ blocks.filterMap id⟩) := by
  -- the schema grows with every declaration, so the induction is over all schemas to start from
  induction decls generalizing s with
  | nil => simp [placeAll]
  | cons decl decls ih =>
    unfold placeAll
    rw [place_eq, List.mapM_cons]
    simp only [bind_assoc, pure_bind, ih]
    refine bind_congr fun block => bind_congr fun blocks => ?_
    cases block <;> simp

theorem placeAll_declarations (j : Job) :
    j.placeAll {} j.schema.declarations = j.compile >>= fun out => pure (some out) := by
  rw [placeAll_eq]
  unfold compile
  simp only [bind_assoc, pure_bind]
  rfl

/-! ## §4. Blocks come out once and are final -/

theorem run_bind_pure {α β : Type} (f : α → β) (x : Compile α) (memory : Memory) :
    (x >>= fun a => pure (f a)).run.run memory =
      ((x.run.run memory).1.map f, (x.run.run memory).2) := by
  show (Asking.bind x _).run memory = ((Asking.run x memory).1.map f, (Asking.run x memory).2)
  induction x generalizing memory with
  | done value =>
    cases value with
    | ok a => rfl
    | error fault => rfl
  | ask name next ih => exact ih _ _

/-- **Blocks come out once, in the order of the declarations, and are final.**  Building in place
    gives what compiling gives, so no handle misses its block, also when the build fails.  The blocks
    of a build have the headings that its declarations ask for.  A declaration leaves the blocks
    alone that it finds, and adds its own behind them.  However blocks are added and edited, an
    issued handle denotes the block it was issued for, and an edit through it shows in no other. -/
theorem blocks_are_final (j : Job) (memory : Memory) :
    (j.placeAll {} j.schema.declarations).run.run memory =
      ((j.build memory).1.map some, (j.build memory).2) ∧
    (∀ out, (j.build memory).1 = .ok out →
      out.blocks.map Target.Block.heading =
        j.schema.declarations.filterMap Declaration.heading?) ∧
    (∀ s decl placed, ((j.place s decl).run.run memory).1 = .ok placed →
      ∃ block : Option Target.Block, placed = some ⟨s.blocks ++ block.toList⟩ ∧
        block.map Target.Block.heading = decl.heading?) ∧
    (∀ s issued, Target.Session s issued →
      s.blocks.length = issued.length ∧ (issued.map (·.handle.place)).Nodup ∧
      ∀ i ∈ issued, s.get? i.handle = some i.content ∧
        ∀ change, ∃ s', s.update? i.handle change = some (change i.content, s') ∧
          s'.get? i.handle = some (change i.content) ∧
          ∀ place, place ≠ i.handle.place → s'.blocks[place]? = s.blocks[place]?) := by
  refine ⟨?_, fun out => headings_build, ?_, ?_⟩
  · rw [placeAll_declarations]
    exact run_bind_pure some j.compile memory
  · intro s decl placed ok
    rw [Identifier.Asking.run_fst] at ok
    change (j.place s decl).answer _ = .ok placed at ok
    rw [place_eq, Compile.answer_bind] at ok
    obtain ⟨block, compiled, ok⟩ := bind_ok_iff.1 ok
    cases ok
    exact ⟨block, rfl, heading_compileDeclaration compiled⟩
  · intro s issued session
    refine ⟨session.length_eq, session.places_nodup, fun i hi => ⟨session.get?_eq hi, ?_⟩⟩
    intro change
    exact session.update?_eq hi change

/-- A register of dogs, with an abstract model, a view and a generator for the client. -/
def register : Document where
  declarations := [
    .datasource { name := "db", entries := [⟨"provider", .literal (.string "postgresql")⟩] },
    .generator {
      name := "client", entries := [⟨"provider", .literal (.string "prisma-client-js")⟩] },
    .model {
      name := "Base"
      isAbstract := true
      fields := [
        { name := "id", type := { scalar := some "Int" }, attributes := [{ name := "@id" }] }] },
    .model { name := "Animal", isDelegate := true, superTypes := ["Base"] },
    .enum { name := "Breed", fields := [{ name := "Beagle" }] },
    .model { name := "Dog", superTypes := ["Animal"] },
    .model {
      name := "Pack"
      isView := true
      fields := [{ name := "leader", type := { scalar := some "String" } }] }]

/-- The headings that the register asks for. -/
def registerHeadings : List Target.Heading := [
  { kind := .datasource, name := "db" },
  { kind := .generator, name := "client" },
  { kind := .model, name := "Animal" },
  { kind := .enum, name := "Breed" },
  { kind := .model, name := "Dog" },
  { kind := .model, name := "Pack", isView := true }]

/-- The register gives six blocks, and so does building it in place.  A session that goes back to
    its second block after adding the third finds all three. -/
theorem register_blocks_are_final :
    ∃ (j : Job) (memory' : Memory) (out : Target.Schema),
      Schema.ofDocument register = .ok j.schema ∧ j.mode = .physical ∧
      (j.placeAll {} j.schema.declarations).run.run (Memory.ofLength Identifier.standardLength) =
        (.ok (some out), memory') ∧
      j.schema.declarations.filterMap Declaration.heading? = registerHeadings ∧
      out.blocks.map Target.Block.heading =
        j.schema.declarations.filterMap Declaration.heading? ∧
      ∃ s issued, Target.Session s issued ∧
        issued.map Target.Issued.block = [
          .datasource { name := "db" },
          .model { name := "Dog", fields := [{ name := "age", type := ⟨"Int", false, true⟩ }] },
          .enum { name := "Breed" }] ∧
        ∀ i ∈ issued, s.get? i.handle = some i.content := by
  have builds : register.buildsTo .physical (fun j _ =>
      j.schema.declarations.filterMap Declaration.heading? == registerHeadings) = true := by
    decide +kernel
  obtain ⟨j, out, memory', resolved, mode, built, test⟩ := Document.exists_build builds
  obtain ⟨inPlace, headings, _, sessions⟩ :=
    blocks_are_final j (Memory.ofLength Identifier.standardLength)
  rw [built] at inPlace headings
  have first := @Target.Session.add _ _ .datasource { name := "db" } Target.Session.start
  have second := @Target.Session.add _ _ .model { name := "Dog" } first
  have third := @Target.Session.add _ _ .enum { name := "Breed" } second
  have edited := @Target.Session.edit _ _ [⟨.datasource, ⟨0⟩, { name := "db" }⟩]
    [⟨.enum, ⟨2⟩, { name := "Breed" }⟩] .model ⟨1⟩ { name := "Dog" } _
    (·.addField { name := "age", type := ⟨"Int", false, true⟩ }) third rfl
  refine ⟨j, memory', out, resolved, mode, inPlace, beq_iff_eq.1 test, headings out rfl, _, _,
    edited, rfl, ?_⟩
  intro i hi
  exact ((sessions _ _ edited).2.2 i hi).1

end Job

end DelegateSchema
