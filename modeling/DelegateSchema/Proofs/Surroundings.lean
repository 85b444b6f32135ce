/-
  DelegateSchema.Proofs.Surroundings — what the block of a model depends on.

  A model is compiled with the whole schema at hand, but it asks only a few things of it: what is
  above the model, what lists it, what its fields point to and what is below that.  Where two
  schemas answer alike, the model compiles alike, and it asks for the same identifiers in the same
  order.

  The walks through a schema look models up by name.  They are alike in two schemas that agree on
  the names that a walk can come to.

  Main results:
    * `compileModel_sameAround` — a model with the same surroundings compiles alike,
    * `ancestorsFrom_congr`, `reaches_congr`, `searchUp_congr` — the walks in two schemas.
-/
import DelegateSchema.Proofs.UntouchedModels

namespace DelegateSchema

open Identifier (Asking)

/-! ## §1. Surroundings -/

/-- A model has the same surroundings in the schemas `s` and `s'`. -/
structure Schema.SameAround (s s' : Schema) (m : Model) : Prop where
  /-- The models above it, -/
  ancestors : s'.ancestors m = s.ancestors m
  /-- the super types that it lists, -/
  bases : m.superTypes.filterMap s'.model? = m.superTypes.filterMap s.model?
  /-- the subtypes that list it, -/
  subtypes : s'.directSubtypes m = s.directSubtypes m
  /-- the models that its fields point to, -/
  targets : ∀ f ∈ m.fields, s'.relationTarget? f = s.relationTarget? f
  /-- what is below these, -/
  descendants : ∀ f ∈ m.fields, ∀ target, s.relationTarget? f = some target →
    s'.descendants target = s.descendants target
  /-- and whether constraints have names. -/
  naming : s'.namesConstraints = s.namesConstraints

theorem foldlM_congr_left {M : Type → Type} [Monad M] [LawfulMonad M] {α β : Type}
    {f g : β → α → M β} {xs : List α} (same : ∀ x ∈ xs, ∀ b, f b x = g b x) (b : β) :
    xs.foldlM f b = xs.foldlM g b := by
  induction xs generalizing b with
  | nil => rfl
  | cons x xs ih =>
    rw [List.foldlM_cons, List.foldlM_cons, same x List.mem_cons_self]
    exact bind_congr fun b => ih (fun y hy => same y (List.mem_cons_of_mem _ hy)) b

namespace Job

section Stored

variable {j : Job} {s' : Schema} {m : Model}
  (stored : ∀ f, s'.storingDelegate? m f = j.schema.storingDelegate? m f)
include stored

theorem toTargetField_stored :
    ({ j with schema := s' } : Job).toTargetField m = j.toTargetField m := by
  funext f
  unfold toTargetField keepsAttribute dropsDefault standIns
  dsimp only
  rw [stored f]

/-- The block of a model before the passes depends on the delegates that store its fields. -/
theorem ownBlock_stored : ({ j with schema := s' } : Job).ownBlock m = j.ownBlock m := by
  have emits : ({ j with schema := s' } : Job).emits m = j.emits m := by
    funext f
    unfold Job.emits
    dsimp only
    rw [stored f]
  unfold ownBlock
  rw [emits, toTargetField_stored stored]

end Stored

section Around

variable {j : Job} {s' : Schema} {m : Model} (around : j.schema.SameAround s' m)
include around

theorem storingDelegate?_sameAround (f : Field) :
    s'.storingDelegate? m f = j.schema.storingDelegate? m f := by
  unfold Schema.storingDelegate?
  rw [around.ancestors]

theorem links_sameAround : ({ j with schema := s' } : Job).links m = j.links m := by
  have up : ({ j with schema := s' } : Job).linkToBase m = j.linkToBase m := by
    funext base
    unfold linkToBase linkConstraint
    dsimp only
    rw [around.naming]
  unfold links linksToSubtypes linksToBases delegateBases
  dsimp only
  rw [around.subtypes, around.bases, up]

theorem widenedTo_sameAround {f : Field} (hf : f ∈ m.fields) :
    ({ j with schema := s' } : Job).widenedTo m f = j.widenedTo m f := by
  unfold widenedTo
  dsimp only
  rw [storingDelegate?_sameAround around f, around.targets f hf]
  cases points : j.schema.relationTarget? f with
  | none => rfl
  | some target =>
    dsimp only
    rw [around.descendants f hf target points]

theorem copyKeys_sameAround (concrete : Model) (keys : List Field) :
    ({ j with schema := s' } : Job).copyKeys m concrete keys = j.copyKeys m concrete keys := by
  have one : ({ j with schema := s' } : Job).copyKey m concrete = j.copyKey m concrete := by
    funext key block
    unfold copyKey
    rw [toTargetField_stored (storingDelegate?_sameAround around)]
  induction keys with
  | nil => rfl
  | cons key keys ih =>
    funext block
    unfold copyKeys
    rw [one, ih]

theorem widenFor_sameAround {f : Field} (hf : f ∈ m.fields) (concrete : Model)
    (block : Target.ModelBlock) :
    ({ j with schema := s' } : Job).widenFor m f block concrete =
      j.widenFor m f block concrete := by
  unfold widenFor widenedRelation Schema.keyPairs
  dsimp only
  simp only [copyKeys_sameAround around, around.targets f hf, around.naming]

theorem widen_sameAround (block : Target.ModelBlock) :
    ({ j with schema := s' } : Job).widen m block = j.widen m block := by
  refine foldlM_congr_left (fun f hf block => ?_) block
  unfold widenField
  rw [widenedTo_sameAround around hf]
  exact foldlM_congr_left (fun concrete _ block => widenFor_sameAround around hf concrete block) block

theorem nameRelations_sameAround
    (origins : ∀ f ∈ m.fields, s'.findUp? m f.name = j.schema.findUp? m f.name)
    (block : Target.ModelBlock) :
    ({ j with schema := s' } : Job).nameRelations m block = j.nameRelations m block := by
  refine foldlM_congr_left (fun f hf block => ?_) block
  unfold nameInherited inheritedOpposite?
  dsimp only
  rw [around.targets f hf, origins f hf]

/-- **A model with the same surroundings compiles alike.**  In logical mode it must also have its
    inherited fields from the same delegates. -/
theorem compileModel_sameAround
    (origins : j.mode = .logical →
      ∀ f ∈ m.fields, s'.findUp? m f.name = j.schema.findUp? m f.name) :
    ({ j with schema := s' } : Job).compileModel m = j.compileModel m := by
  have completes : ({ j with schema := s' } : Job).completeBlock m = j.completeBlock m := by
    funext block
    unfold completeBlock
    dsimp only
    rw [links_sameAround around, widen_sameAround around]
    cases mode : j.mode with
    | physical => rfl
    | logical =>
      have names := nameRelations_sameAround around (origins mode)
      rw [mode] at names
      exact bind_congr fun block => congrArg ExceptT.lift (names block)
  unfold compileModel
  rw [ownBlock_stored (storingDelegate?_sameAround around), completes]

end Around

end Job

/-! ## §2. The walks in two schemas -/

namespace Schema

section Walks

/- The schemas agree on the names that satisfy `P`, and the models of such names list only such
   names. -/
variable {s s' : Schema} {P : String → Prop}
  (same : ∀ name, P name → s'.model? name = s.model? name)
  (closed : ∀ name m, P name → s.model? name = some m → ∀ base ∈ m.superTypes, P base)
include same closed

theorem ancestorsFrom_congr (found : List Model) (queue : List String)
    (inside : ∀ name ∈ queue, P name) :
    s'.ancestorsFrom found queue = s.ancestorsFrom found queue := by
  -- the walk in `s` gives the cases, and `same` the look-up that the walk in `s'` makes there
  fun_induction ancestorsFrom s found queue with
  | case1 found => rw [ancestorsFrom]
  | case2 found name queue known ih =>
    rw [ancestorsFrom, dif_pos known]
    exact ih fun n hn => inside n (List.mem_cons_of_mem _ hn)
  | case3 found name queue new missing ih =>
    have missing' := (same name (inside name List.mem_cons_self)).trans missing
    rw [ancestorsFrom, dif_neg new]
    split
    next => exact ih fun n hn => inside n (List.mem_cons_of_mem _ hn)
    next base found' => cases missing'.symm.trans found'
  | case4 found name queue new base isModel ih =>
    have isModel' := (same name (inside name List.mem_cons_self)).trans isModel
    rw [ancestorsFrom, dif_neg new]
    split
    next missing => cases missing.symm.trans isModel'
    next base' found' =>
      cases isModel'.symm.trans found'
      refine ih fun n hn => ?_
      rcases List.mem_append.1 hn with queued | above
      · exact inside n (List.mem_cons_of_mem _ queued)
      · exact closed name base (inside name List.mem_cons_self) isModel n above

theorem reaches_congr (ancestor : String) (visited stack : List String)
    (inside : ∀ name ∈ stack, P name) :
    s'.reaches ancestor visited stack = s.reaches ancestor visited stack := by
  fun_induction reaches s ancestor visited stack with
  | case1 visited => rw [reaches]
  | case2 visited stack => rw [reaches, if_pos rfl]
  | case3 visited name stack other seen ih =>
    rw [reaches, if_neg other, dif_pos seen]
    exact ih fun n hn => inside n (List.mem_cons_of_mem _ hn)
  | case4 visited name stack other new missing ih =>
    have missing' := (same name (inside name List.mem_cons_self)).trans missing
    rw [reaches, if_neg other, dif_neg new]
    split
    next => exact ih fun n hn => inside n (List.mem_cons_of_mem _ hn)
    next base found' => cases missing'.symm.trans found'
  | case5 visited name stack other new base isModel ih =>
    have isModel' := (same name (inside name List.mem_cons_self)).trans isModel
    rw [reaches, if_neg other, dif_neg new]
    split
    next missing => cases missing.symm.trans isModel'
    next base' found' =>
      cases isModel'.symm.trans found'
      refine ih fun n hn => ?_
      rcases List.mem_append.1 hn with above | stacked
      · exact closed name base (inside name List.mem_cons_self) isModel n (List.mem_reverse.1 above)
      · exact inside n (List.mem_cons_of_mem _ stacked)

theorem searchUp_congr (fieldName : String) (visited todo : List String)
    (owns : ∀ name m, s.model? name = some m →
      s'.ownDelegateField? fieldName m = s.ownDelegateField? fieldName m)
    (inside : ∀ name ∈ todo, P name) :
    s'.searchUp fieldName visited todo = s.searchUp fieldName visited todo := by
  fun_induction searchUp s fieldName visited todo with
  | case1 visited => rw [searchUp]
  | case2 visited name todo missing ih =>
    have missing' := (same name (inside name List.mem_cons_self)).trans missing
    rw [searchUp]
    split
    next => exact ih fun n hn => inside n (List.mem_cons_of_mem _ hn)
    next base found' => cases missing'.symm.trans found'
  | case3 visited name todo base isModel seen ih =>
    have isModel' := (same name (inside name List.mem_cons_self)).trans isModel
    rw [searchUp]
    split
    next missing => cases missing.symm.trans isModel'
    next base' found' =>
      rw [dif_pos seen]
      exact ih fun n hn => inside n (List.mem_cons_of_mem _ hn)
  | case4 visited name todo base isModel new found own =>
    have isModel' := (same name (inside name List.mem_cons_self)).trans isModel
    rw [searchUp]
    split
    next missing => cases missing.symm.trans isModel'
    next base' found' =>
      cases isModel'.symm.trans found'
      rw [dif_neg new, owns name base isModel, own]
  | case5 visited name todo base isModel new none ih =>
    have isModel' := (same name (inside name List.mem_cons_self)).trans isModel
    rw [searchUp]
    split
    next missing => cases missing.symm.trans isModel'
    next base' found' =>
      cases isModel'.symm.trans found'
      rw [dif_neg new, owns name base isModel, none]
      refine ih fun n hn => ?_
      rcases List.mem_append.1 hn with above | later
      · exact closed name base (inside name List.mem_cons_self) isModel n above
      · exact inside n (List.mem_cons_of_mem _ later)

end Walks

end Schema

end DelegateSchema
