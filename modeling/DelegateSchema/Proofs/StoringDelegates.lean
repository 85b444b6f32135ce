/-
  DelegateSchema.Proofs.StoringDelegates — whether the delegate that answers for a field stores it.

  Asked for the delegate that stores an inherited field, a schema answers with the last delegate on
  the queue of ancestors that has a field of that name.  The queue goes by distance, which is the
  length of a *shortest* way up.  So the last delegate need not be the highest: where a way up leads
  past it to a delegate further up, that one may come before it on the queue, and the answer is a
  delegate that has the field from above and stores nothing itself.

  Main results:
    * `storingDelegate?_eq_some` — the answer is as far away as any delegate that has the field,
    * `keeps_iff_not_bypassed` — it stores the field unless it has it from a delegate that is no
      further away,
    * `Graded.distance_lt`, `graded_of_single` — where all ways up to a model have one length, what
      is above is further away,
    * `exists_keeper` — asking again, of the answer, leads to a delegate that stores the field,
    * `storesColumn_iff` — which columns the block of a model has,
    * `storing_delegate_keeps_iff` — when the answer is the delegate with the column,
    * `dogs_store_no_notes` — where it is not.
-/
import DelegateSchema.Proofs.ClosedRelations
import DelegateSchema.Proofs.StoredFields
import DelegateSchema.Proofs.Walks

namespace DelegateSchema

open Identifier (Memory)
open Relation

namespace Schema

variable {s : Schema}

/-! ## §1. Ways up of one length -/

/-- Two ways up, one after the other. -/
theorem StepsUp.trans {n k : Nat} {name mid top : String} (lower : s.StepsUp n name mid)
    (upper : s.StepsUp k mid top) : s.StepsUp (n + k) name top := by
  induction k generalizing top with
  | zero =>
    rw [← show mid = top from upper]
    exact lower
  | succ k ih =>
    obtain ⟨base, steps, step⟩ := upper
    exact ⟨base, ih steps, step⟩

/-- A way up can be cut after any number of steps. -/
theorem StepsUp.exists_mid {n k : Nat} {name top : String} (steps : s.StepsUp (n + k) name top) :
    ∃ mid, s.StepsUp n name mid ∧ s.StepsUp k mid top := by
  induction k generalizing top with
  | zero => exact ⟨top, steps, rfl⟩
  | succ k ih =>
    obtain ⟨base, steps, step⟩ := steps
    obtain ⟨mid, lower, upper⟩ := ih steps
    exact ⟨mid, lower, base, upper, step⟩

/-- All ways from the model `name` up to one model have one length. -/
def Graded (s : Schema) (name : String) : Prop :=
  ∀ n k top, s.StepsUp n name top → s.StepsUp k name top → n = k

/-- **Where all ways up have one length, what is above is further away.** -/
theorem Graded.distance_lt {name mid top : String} (graded : s.Graded name)
    (lower : s.Below name mid) (upper : s.Below mid top) :
    s.distance name mid < s.distance name top := by
  obtain ⟨n, pos, steps⟩ := below_iff_stepsUp.1 lower
  obtain ⟨k, pos', steps'⟩ := below_iff_stepsUp.1 upper
  have whole := steps.trans steps'
  have nearer : s.distance name mid = n :=
    graded _ _ _ (stepsUp_distance pos steps).2 steps
  have further : s.distance name top = n + k :=
    graded _ _ _ (stepsUp_distance (by omega) whole).2 whole
  omega

/-- Where every model lists one super type at most, a way up has no choice. -/
theorem StepsUp.unique (single : ∀ x ∈ s.models, x.superTypes.length ≤ 1) {n : Nat}
    {name top top' : String} (steps : s.StepsUp n name top) (steps' : s.StepsUp n name top') :
    top = top' := by
  induction n generalizing top top' with
  | zero =>
    rw [← show name = top from steps]
    exact steps'
  | succ n ih =>
    obtain ⟨base, below, m, found, listed⟩ := steps
    obtain ⟨base', below', m', found', listed'⟩ := steps'
    rw [ih below below', found'] at found
    cases found
    have short := single m (mem_of_findModel? found')
    cases superTypes : m.superTypes with
    | nil =>
      rw [superTypes] at listed
      cases listed
    | cons first rest =>
      have alone : rest = [] := by
        rw [superTypes, List.length_cons] at short
        exact List.length_eq_zero_iff.1 (by omega)
      rw [superTypes, alone, List.mem_singleton] at listed listed'
      rw [listed, listed']

/-- **One super type each, and all ways up have one length**: the longer of two ways to a model
    would go on from there and come back to it. -/
theorem graded_of_single (single : ∀ x ∈ s.models, x.superTypes.length ≤ 1)
    (acyclic : ∀ name, ¬ s.Below name name) (name : String) : s.Graded name := by
  have not_longer : ∀ n k top, s.StepsUp n name top → s.StepsUp (n + k) name top → k = 0 := by
    intro n k top steps longer
    obtain ⟨mid, lower, upper⟩ := longer.exists_mid
    rw [lower.unique single steps] at upper
    by_contra more
    exact acyclic top (below_iff_stepsUp.2 ⟨k, Nat.pos_of_ne_zero more, upper⟩)
  intro n k top steps steps'
  rcases Nat.le_total n k with shorter | shorter
  · obtain ⟨more, rfl⟩ := Nat.exists_eq_add_of_le shorter
    have := not_longer n more top steps steps'
    omega
  · obtain ⟨more, rfl⟩ := Nat.exists_eq_add_of_le shorter
    have := not_longer k more top steps' steps
    omega

/-! ## §2. The last delegate on the queue -/

theorem pairwise_ancestors {m : Model} (isModel : s.model? m.name = some m) :
    (s.ancestors m).Pairwise fun x y => s.distance m.name x.name ≤ s.distance m.name y.name := by
  unfold ancestors
  rw [List.pairwise_reverse]
  exact pairwise_ancestorsFrom (Levelled.first isModel) (List.append_nil _).symm

theorem mem_ancestors_trans {m x y : Model} (isModel : s.model? m.name = some m)
    (hx : x ∈ s.ancestors m) (hy : y ∈ s.ancestors x) : y ∈ s.ancestors m := by
  obtain ⟨isX, below⟩ := (mem_ancestors isModel x).1 hx
  obtain ⟨isY, above⟩ := (mem_ancestors isX y).1 hy
  exact (mem_ancestors isModel y).2 ⟨isY, below.trans above⟩

/-- **The answer is a delegate above that has the field, and none that has it is further away.** -/
theorem storingDelegate?_eq_some {m top : Model} {f : Field} (isModel : s.model? m.name = some m)
    (stored : s.storingDelegate? m f = some top) :
    f.inheritedFrom.isSome = true ∧ top ∈ s.ancestors m ∧ top.isDelegate = true ∧
      (top.field? f.name).isSome = true ∧
      ∀ x ∈ s.ancestors m, x.isDelegate = true → (x.field? f.name).isSome = true →
        s.distance m.name x.name ≤ s.distance m.name top.name := by
  unfold storingDelegate? at stored
  split at stored
  next inherited =>
    obtain ⟨before, split⟩ := List.getLast?_eq_some_iff.1 stored
    have ordered := (pairwise_ancestors isModel).filter
      fun base => base.isDelegate && (base.field? f.name).isSome
    rw [split, List.pairwise_append] at ordered
    have last := List.mem_of_getLast? stored
    rw [List.mem_filter, Bool.and_eq_true] at last
    obtain ⟨htop, delegate, has⟩ := last
    refine ⟨inherited, htop, delegate, has, ?_⟩
    intro x hx isDelegate hasField
    -- the queue goes by distance, and so does what is left of it
    have candidate : x ∈ before ++ [top] := by
      rw [← split, List.mem_filter, Bool.and_eq_true]
      exact ⟨hx, isDelegate, hasField⟩
    rcases List.mem_append.1 candidate with earlier | same
    · exact ordered.2.2 x earlier top (List.mem_singleton.2 rfl)
    · rw [List.mem_singleton.1 same]
  next => cases stored

/-! ## §3. Delegates that store what they have -/

/-- The model has a field of that name and stores it itself: no delegate above it does. -/
def Keeps (s : Schema) (x : Model) (name : String) : Prop :=
  ∃ g, x.field? name = some g ∧ s.storingDelegate? x g = none

instance (s : Schema) (x : Model) (name : String) : Decidable (s.Keeps x name) :=
  decidable_of_iff ((x.field? name).any (fun g => (s.storingDelegate? x g).isNone) = true) (by
    simp only [Option.any_eq_true, Option.isNone_iff_eq_none]
    rfl)

/-- From `m`, a delegate above `x` that has a field of that name is no further away than `x`: a
    way up leads past `x`. -/
def Bypassed (s : Schema) (m x : Model) (name : String) : Prop :=
  ∃ y ∈ s.ancestors x, y.isDelegate = true ∧ (y.field? name).isSome = true ∧
    s.distance m.name y.name ≤ s.distance m.name x.name

/-- What a model has under a name decides whether it stores it. -/
theorem keeps_iff {x : Model} {name : String} {g : Field} (hg : x.field? name = some g) :
    s.Keeps x name ↔ s.storingDelegate? x g = none := by
  unfold Keeps
  rw [hg]
  simp

/-- No delegate answers for a field that is declared, or that no delegate above has. -/
theorem storingDelegate?_eq_none_iff (s : Schema) (x : Model) (g : Field) :
    s.storingDelegate? x g = none ↔ g.inheritedFrom = none ∨
      ∀ y ∈ s.ancestors x, y.isDelegate = true → y.field? g.name = none := by
  unfold storingDelegate?
  cases g.inheritedFrom with
  | none => simp
  | some origin => simp

/-- **The answer stores the field unless it is bypassed**, or declares the field itself.  A delegate
    above it that has the field as well is on the queue too, and so it is no further away. -/
theorem keeps_iff_not_bypassed {m top : Model} {f g : Field} (isModel : s.model? m.name = some m)
    (stored : s.storingDelegate? m f = some top) (hg : top.field? f.name = some g) :
    s.Keeps top f.name ↔ g.inheritedFrom = none ∨ ¬ s.Bypassed m top f.name := by
  obtain ⟨_, htop, _, _, furthest⟩ := storingDelegate?_eq_some isModel stored
  rw [keeps_iff hg, storingDelegate?_eq_none_iff, Model.name_of_field? hg]
  refine or_congr_right ?_
  constructor
  · intro nowhere ⟨y, hy, delegate, has, _⟩
    rw [nowhere y hy delegate] at has
    cases has
  · intro direct y hy delegate
    by_contra has
    have hasField : (y.field? f.name).isSome = true := Option.isSome_iff_ne_none.2 has
    exact direct ⟨y, hy, delegate, hasField,
      furthest y (mem_ancestors_trans isModel htop hy) delegate hasField⟩

theorem Graded.not_bypassed {m top : Model} (graded : s.Graded m.name)
    (isModel : s.model? m.name = some m) (htop : top ∈ s.ancestors m) (name : String) :
    ¬ s.Bypassed m top name := by
  intro ⟨y, hy, _, _, near⟩
  obtain ⟨isTop, below⟩ := (mem_ancestors isModel top).1 htop
  have := graded.distance_lt below ((mem_ancestors isTop y).1 hy).2
  omega

/-- **Asking again leads to a delegate that stores the field.**  The induction goes up the super
    types, which run in no circle: a delegate that does not store the field gives an answer, which
    is a delegate above it with a field of that name. -/
theorem exists_keeper {own : Schema} (merges : Merges own s) {x : Model}
    (isModel : s.model? x.name = some x) (delegate : x.isDelegate = true) {name : String}
    (has : (x.field? name).isSome = true) :
    ∃ keeper, (keeper = x ∨ keeper ∈ s.ancestors x) ∧ keeper.isDelegate = true ∧
      s.Keeps keeper name := by
  generalize isName : x.name = start
  induction start using merges.grounded.transGen.induction generalizing x with
  | h start ih =>
    obtain ⟨g, hg⟩ := Option.isSome_iff_exists.1 has
    have named : g.name = name := Model.name_of_field? hg
    cases answer : s.storingDelegate? x g with
    | none => exact ⟨x, Or.inl rfl, delegate, (keeps_iff hg).2 answer⟩
    | some y =>
      obtain ⟨_, hy, isDelegate, hasField, _⟩ := storingDelegate?_eq_some isModel answer
      obtain ⟨isY, above⟩ := (mem_ancestors isModel y).1 hy
      rw [isName] at above
      rw [named] at hasField
      obtain ⟨keeper, higher, keeps⟩ :=
        ih y.name (transGen_swap.2 above) isY isDelegate hasField rfl
      refine ⟨keeper, Or.inr ?_, keeps⟩
      rcases higher with rfl | higher
      · exact hy
      · exact mem_ancestors_trans isModel hy higher

end Schema

/-! ## §4. Declared fields -/

/-- The document declares a field of that name with the model. -/
def Document.Declares (d : Document) (model name : String) : Prop :=
  ∃ c ∈ modelsOf d.declarations, c.name = model ∧ name ∈ c.fieldNames

section Documents

variable {d : Document} {s : Schema} (resolved : Schema.ofDocument d = .ok s)
  (plain : d.flattened = false)
include resolved plain

/-- A field that a model has but does not declare is marked, and it is the only one of its name. -/
theorem marked_of_undeclared {x : Model} (hx : x ∈ s.models) {f : Field} (hf : f ∈ x.fields)
    (undeclared : ¬ d.Declares x.name f.name) :
    f.inheritedFrom.isSome = true ∧ ∀ g ∈ x.fields, g.name = f.name → g = f := by
  have known := Schema.name_mem_of_model?
    (Schema.model?_of_mem (Schema.modelNames_nodup_of_ofDocument resolved) hx)
  rw [Schema.modelNames_eq_declared resolved plain] at known
  obtain ⟨c, hc, named⟩ := List.mem_map.1 known
  obtain ⟨marked, before, after, split, others⟩ :=
    Schema.exists_split_inherited resolved plain hc hx named.symm hf
      fun declared => undeclared ⟨c, hc, named, declared⟩
  refine ⟨marked, ?_⟩
  intro g hg same
  rw [split] at hg
  by_contra different
  refine others g ?_ same.symm
  simp only [List.mem_append, List.mem_cons] at hg ⊢
  tauto

/-- **A field is unmarked exactly when the document declares its name with the model.** -/
theorem unmarked_iff_declares
    (unmarked : ∀ m ∈ modelsOf d.declarations, ∀ f ∈ m.fields, f.inheritedFrom = none)
    {x : Model} (hx : x ∈ s.models) {f : Field} (hf : f ∈ x.fields) :
    f.inheritedFrom = none ↔ d.Declares x.name f.name := by
  constructor
  · intro own
    by_contra undeclared
    have marked := (marked_of_undeclared resolved plain hx hf undeclared).1
    rw [own] at marked
    cases marked
  · intro ⟨c, hc, named, declared⟩
    obtain ⟨u, bases, resolves, _, isModel⟩ := Schema.exists_merged resolved plain hc
    rw [named, Schema.model?_of_mem (Schema.modelNames_nodup_of_ofDocument resolved) hx] at isModel
    cases isModel
    -- nothing of a declared name is taken over from the super types
    rcases List.mem_append.1 hf with inherited | own
    · rw [← resolves.fieldNames_eq] at declared
      exact absurd declared ((Inherited.sound_ofBases u bases).undeclared f inherited)
    · obtain ⟨f', hf', usages, _, rfl⟩ := forall₂_exists_left resolves.fields own
      exact unmarked c hc f' hf'

/-- A marked field is what its model has under its name. -/
theorem field?_of_marked
    (unmarked : ∀ m ∈ modelsOf d.declarations, ∀ f ∈ m.fields, f.inheritedFrom = none)
    {x : Model} (hx : x ∈ s.models) {f : Field} (hf : f ∈ x.fields)
    (marked : f.inheritedFrom.isSome = true) : x.field? f.name = some f := by
  have undeclared : ¬ d.Declares x.name f.name := by
    intro declared
    rw [(unmarked_iff_declares resolved plain unmarked hx hf).2 declared] at marked
    cases marked
  have alone := (marked_of_undeclared resolved plain hx hf undeclared).2
  obtain ⟨g, hg⟩ :=
    Option.isSome_iff_exists.1 ((x.field?_isSome_iff f.name).2 (Model.mem_fieldNames hf))
  rw [hg, alone g (Model.mem_of_field? hg) (Model.name_of_field? hg)]

end Documents

/-! ## §5. Columns of a physical build -/

namespace Job

/-- In the output the block of the model has a column of that name that was not generated. -/
def StoresColumn (j : Job) (out : Target.Schema) (m : Model) (column : String) : Prop :=
  ∃ block, out.findModel? m.name = some block ∧ column ∈ j.emittedNames m block

variable {j : Job} {memory memory' : Memory} {out : Target.Schema}

/-- A model has a column for a field that no delegate stores, or that identifies its rows. -/
theorem emits_eq_true_iff (physical : j.mode = .physical) (m : Model) (f : Field) :
    j.emits m f = true ↔ j.schema.storingDelegate? m f = none ∨ m.isIdField f = true := by
  unfold emits
  rw [physical]
  simp

section Build

variable {d : Document} (resolved : Schema.ofDocument d = .ok j.schema)
  (plain : d.flattened = false) (physical : j.mode = .physical)
include resolved plain physical

/-- A model emits a column of a name exactly when it emits its first field of that name: where
    there are others, the first one is declared, and a declared field is always emitted. -/
theorem mem_emitted_iff
    (unmarked : ∀ m ∈ modelsOf d.declarations, ∀ f ∈ m.fields, f.inheritedFrom = none)
    {x : Model} (hx : x ∈ j.schema.models) {name : String} {g : Field}
    (hg : x.field? name = some g) :
    name ∈ (x.fields.filter (j.emits x)).map (·.name) ↔ j.emits x g = true := by
  have named : g.name = name := Model.name_of_field? hg
  have member := Model.mem_of_field? hg
  constructor
  · intro emitted
    obtain ⟨f, hf, isName⟩ := List.mem_map.1 emitted
    obtain ⟨hf, emits⟩ := List.mem_filter.1 hf
    by_cases declared : d.Declares x.name g.name
    · have own := (unmarked_iff_declares resolved plain unmarked hx member).2 declared
      rw [emits_eq_true_iff physical, Schema.storingDelegate?_eq_none_iff]
      exact Or.inl (Or.inl own)
    · have alone := (marked_of_undeclared resolved plain hx member declared).2
      rw [← alone f hf (isName.trans named.symm)]
      exact emits
  · intro emits
    exact List.mem_map.2 ⟨g, List.mem_filter.2 ⟨member, emits⟩, named⟩

/-- **Which columns the block of a model has**: those that the model stores, and those that
    identify its rows.  An abstract model has no block. -/
theorem storesColumn_iff (built : j.build memory = (.ok out, memory'))
    (unmarked : ∀ m ∈ modelsOf d.declarations, ∀ f ∈ m.fields, f.inheritedFrom = none)
    {x : Model} (hx : x ∈ j.schema.models) {name : String} {g : Field}
    (hg : x.field? name = some g) :
    j.StoresColumn out x name ↔ x.isAbstract = false ∧
      (j.schema.Keeps x name ∨ x.isIdField g = true) := by
  obtain ⟨own, _, merges⟩ := Schema.merges_of_ofDocument resolved plain
  have distinct := merges.modelNames_nodup
  have columns : ∀ block, out.findModel? x.name = some block → x.isAbstract = false →
      j.emittedNames x block = (x.fields.filter (j.emits x)).map (·.name) := by
    intro block found concrete
    obtain ⟨block', found', _, names⟩ :=
      exists_physical_block merges physical built (mem_concreteModels.2 ⟨hx, concrete⟩)
    rw [found] at found'
    cases found'
    exact emittedNames_eq names
  rw [Schema.keeps_iff hg, ← emits_eq_true_iff physical,
    ← mem_emitted_iff resolved plain physical unmarked hx hg]
  constructor
  · intro ⟨block, found, column⟩
    have concrete := (compileModel_of_findModel? built distinct hx found).1
    exact ⟨concrete, columns block found concrete ▸ column⟩
  · intro ⟨concrete, emitted⟩
    obtain ⟨block, found, _⟩ := exists_block built distinct hx concrete
    exact ⟨block, found, columns block found concrete ▸ emitted⟩

end Build

end Job

/-! ## §6. The delegate that answers for a field -/

/-- **When the delegate that answers for a field is the one that stores it.**  In a document that
    resolves, and whose own fields carry no marks, let `top` be the answer for a field of `m`.

    It stores the field exactly when it declares it or is not bypassed, that is, when no delegate
    above it that has the field is as near to `m` as `top` is.  So it does where all ways up from `m`
    to a model have one length, as they have where every model lists one super type at most.  In any
    case the answer, or a delegate above it, stores the field.

    In a physical build the block of `m` has the column only to identify its rows, and the block
    of `top`, if it has one, has it exactly when `top` stores the field or needs it for that, too. -/
theorem storing_delegate_keeps_iff {d : Document} {s : Schema}
    (resolved : Schema.ofDocument d = .ok s) (plain : d.flattened = false)
    (unmarked : ∀ m ∈ modelsOf d.declarations, ∀ f ∈ m.fields, f.inheritedFrom = none)
    {m : Model} (hm : m ∈ s.models) {f : Field} (hf : f ∈ m.fields) {top : Model}
    (stored : s.storingDelegate? m f = some top) :
    (s.Keeps top f.name ↔ d.Declares top.name f.name ∨ ¬ s.Bypassed m top f.name) ∧
    (s.Graded m.name → s.Keeps top f.name) ∧
    ((∀ x ∈ s.models, x.superTypes.length ≤ 1) → s.Keeps top f.name) ∧
    (∃ keeper, (keeper = top ∨ keeper ∈ s.ancestors top) ∧ keeper.isDelegate = true ∧
      s.Keeps keeper f.name) ∧
    ∀ (j : Job) (memory memory' : Memory) (out : Target.Schema), j.schema = s →
      j.mode = .physical → j.build memory = (.ok out, memory') →
      (j.StoresColumn out m f.name ↔ m.isAbstract = false ∧ m.isIdField f = true) ∧
      ∃ g, top.field? f.name = some g ∧
        (j.StoresColumn out top f.name ↔
          top.isAbstract = false ∧ (s.Keeps top f.name ∨ top.isIdField g = true)) := by
  obtain ⟨own, _, merges⟩ := Schema.merges_of_ofDocument resolved plain
  have isModel := Schema.model?_of_mem merges.modelNames_nodup hm
  obtain ⟨marked, htop, delegate, has, _⟩ := Schema.storingDelegate?_eq_some isModel stored
  obtain ⟨g, hg⟩ := Option.isSome_iff_exists.1 has
  have isTop := ((Schema.mem_ancestors isModel top).1 htop).1
  have exactly : s.Keeps top f.name ↔ d.Declares top.name f.name ∨ ¬ s.Bypassed m top f.name := by
    have declares := unmarked_iff_declares resolved plain unmarked (mem_of_findModel? isTop)
      (Model.mem_of_field? hg)
    rw [Model.name_of_field? hg] at declares
    rw [Schema.keeps_iff_not_bypassed isModel stored hg, declares]
  have ofGraded : s.Graded m.name → s.Keeps top f.name := fun graded =>
    exactly.2 (Or.inr (graded.not_bypassed isModel htop f.name))
  refine ⟨exactly, ofGraded, ?_, Schema.exists_keeper merges isTop delegate has, ?_⟩
  · intro single
    exact ofGraded (Schema.graded_of_single single merges.not_below_self m.name)
  · intro j memory memory' out isSchema physical built
    subst isSchema
    have hm' := field?_of_marked resolved plain unmarked hm hf marked
    have notKept : ¬ j.schema.Keeps m f.name := by
      rw [Schema.keeps_iff hm', stored]
      simp
    refine ⟨?_, g, hg, ?_⟩
    · rw [Job.storesColumn_iff resolved plain physical built unmarked hm hm', or_iff_right notKept]
    · exact Job.storesColumn_iff resolved plain physical built unmarked (mem_of_findModel? isTop) hg

/-- Dogs are animals, and animals are records with a note.  Puppies list the dogs and the animals,
    in the given order. -/
def shelter (order : List String) : Document where
  declarations := [
    .model {
      name := "Record"
      isAbstract := true
      fields := [{ name := "note", type := { scalar := some "String" } }] },
    .model {
      name := "Animal"
      isDelegate := true
      fields := Job.animalFields
      superTypes := ["Record"] },
    .model { name := "Dog", isDelegate := true, superTypes := ["Animal"] },
    .model { name := "Puppy", superTypes := order }]

/-- Where puppies list the dogs first, the animals answer for their notes.  They do not declare
    them, but no delegate is above them, so they store them, and their block has the column. -/
theorem notes_stored_with_animals :
    ∃ (j : Job) (memory' : Memory) (out : Target.Schema),
      Schema.ofDocument (shelter ["Dog", "Animal"]) = .ok j.schema ∧ j.mode = .physical ∧
      j.build (Memory.ofLength Identifier.standardLength) = (.ok out, memory') ∧
      ∃ puppy ∈ j.schema.models, ∃ f ∈ puppy.fields, ∃ animal,
        puppy.name = "Puppy" ∧ f.name = "note" ∧ animal.name = "Animal" ∧
        j.schema.storingDelegate? puppy f = some animal ∧ j.schema.Keeps animal f.name ∧
        j.StoresColumn out animal f.name ∧ ¬ j.StoresColumn out puppy f.name := by
  have builds : (shelter ["Dog", "Animal"]).buildsTo .physical (fun j _ =>
      j.schema.models.any fun puppy => puppy.fields.any fun f =>
        puppy.name == "Puppy" && f.name == "note" && !puppy.isIdField f &&
        (j.schema.storingDelegate? puppy f).any fun animal =>
          animal.name == "Animal" && !animal.isAbstract &&
          (j.schema.ancestors animal).all fun x => !x.isDelegate) = true := by
    decide +kernel
  obtain ⟨j, out, memory', resolved, physical, built, test⟩ := Document.exists_build builds
  simp only [Bool.and_eq_true, List.any_eq_true, List.all_eq_true, beq_iff_eq, Bool.not_eq_true',
    Option.any_eq_true] at test
  obtain ⟨puppy, hpuppy, f, hf, ⟨⟨isPuppy, isNote⟩, noId⟩, animal, stored, ⟨isAnimal, concrete⟩,
    highest⟩ := test
  obtain ⟨exactly, _, _, _, columns⟩ :=
    storing_delegate_keeps_iff resolved rfl (by decide) hpuppy hf stored
  have keeps : j.schema.Keeps animal f.name := by
    refine exactly.2 (Or.inr ?_)
    intro ⟨x, hx, delegate, _⟩
    rw [highest x hx] at delegate
    cases delegate
  obtain ⟨ofPuppy, _, _, ofAnimal⟩ := columns j _ memory' out rfl physical built
  refine ⟨j, memory', out, resolved, physical, built, puppy, hpuppy, f, hf, animal, isPuppy, isNote,
    isAnimal, stored, keeps, ofAnimal.2 ⟨concrete, Or.inl keeps⟩, ?_⟩
  rw [ofPuppy, noId]
  simp

/-- **The answer need not store the field**: where puppies list the animals first, these are before
    the dogs on the queue.  The dogs answer for the notes of puppies, but they have them from the
    animals, which answer for the notes of dogs, and the block of the dogs has no such column. -/
theorem dogs_store_no_notes :
    ∃ (j : Job) (memory' : Memory) (out : Target.Schema),
      Schema.ofDocument (shelter ["Animal", "Dog"]) = .ok j.schema ∧
      (shelter ["Animal", "Dog"]).flattened = false ∧
      (∀ m ∈ modelsOf (shelter ["Animal", "Dog"]).declarations, ∀ f ∈ m.fields,
        f.inheritedFrom = none) ∧ j.mode = .physical ∧
      j.build (Memory.ofLength Identifier.standardLength) = (.ok out, memory') ∧
      ∃ puppy ∈ j.schema.models, ∃ f ∈ puppy.fields, ∃ dog,
        puppy.name = "Puppy" ∧ f.name = "note" ∧ dog.name = "Dog" ∧
        j.schema.storingDelegate? puppy f = some dog ∧
        (∃ g animal, dog.field? f.name = some g ∧ j.schema.storingDelegate? dog g = some animal ∧
          animal.name = "Animal") ∧
        ¬ j.schema.Keeps dog f.name ∧ ¬ j.StoresColumn out dog f.name := by
  have builds : (shelter ["Animal", "Dog"]).buildsTo .physical (fun j _ =>
      j.schema.models.any fun puppy => puppy.fields.any fun f =>
        puppy.name == "Puppy" && f.name == "note" &&
        (j.schema.storingDelegate? puppy f).any fun dog =>
          dog.name == "Dog" && !decide (j.schema.Keeps dog f.name) &&
          (dog.field? f.name).any fun g => !dog.isIdField g &&
            (j.schema.storingDelegate? dog g).any (·.name == "Animal")) = true := by
    decide +kernel
  obtain ⟨j, out, memory', resolved, physical, built, test⟩ := Document.exists_build builds
  simp only [Bool.and_eq_true, List.any_eq_true, beq_iff_eq, Bool.not_eq_true',
    Option.any_eq_true, decide_eq_false_iff_not] at test
  obtain ⟨puppy, hpuppy, f, hf, ⟨isPuppy, isNote⟩, dog, stored, ⟨isDog, notKept⟩, g, hg, noId,
    animal, answer, isAnimal⟩ := test
  have unmarked : ∀ m ∈ modelsOf (shelter ["Animal", "Dog"]).declarations, ∀ f ∈ m.fields,
      f.inheritedFrom = none := by decide
  have isModel := Schema.model?_of_mem (Schema.modelNames_nodup_of_ofDocument resolved) hpuppy
  obtain ⟨_, hdog, _⟩ := Schema.storingDelegate?_eq_some isModel stored
  have known := mem_of_findModel? ((Schema.mem_ancestors isModel dog).1 hdog).1
  refine ⟨j, memory', out, resolved, rfl, unmarked, physical, built, puppy, hpuppy, f, hf, dog,
    isPuppy, isNote, isDog, stored, ⟨g, animal, hg, answer, isAnimal⟩, notKept, ?_⟩
  rw [Job.storesColumn_iff resolved rfl physical built unmarked known hg, noId]
  simp [notKept]

end DelegateSchema
