/-
  DelegateSchema.Proofs.CopiedMarks — attributes that mark a single column.

  A copy of a key carries the attributes of the key, and apart from the name of its constraint
  they are copied as they are.  So the copy of a primary key is a primary key again, and the copy
  of a mapped key has the same column name.  What a model marks once is marked once in its block
  exactly when no copied key has the mark.

  Main results:
    * `Marking.nodup_iff` — marks that stay distinct through widening,
    * `copied_marks_iff` — when a block still has one primary key, and distinct column names,
    * `marks_copied_along` — blocks that do not.
-/
import DelegateSchema.Proofs.UniqueCopies
import Mathlib.Data.List.Flatten

namespace DelegateSchema

open Identifier (Memory)

namespace Job

variable {j : Job} {m : Model}

/-! ## §1. Marks that widening copies -/

/-- A reading that copying a key keeps, beside what it reads on the fields of a model. -/
structure Marking (j : Job) (m : Model) (γ : Type) extends Reading γ where
  written : Field → List γ
  read_copiedAs : ∀ g name, read (g.copiedAs name) = read g
  read_compiled : ∀ f g, j.toTargetField m f = .ok g → read g = written f

namespace Marking

variable {γ : Type} {memory : Memory} {start block : Target.ModelBlock}

theorem flatMap_compiled (marking : Marking j m γ) {fs : List Field} {gs : List Target.Field}
    (h : List.Forall₂ (fun f g => j.toTargetField m f = .ok g) fs gs) :
    gs.flatMap marking.read = fs.flatMap marking.written := by
  induction h with
  | nil => rfl
  | cons compiled _ ih =>
    rw [List.flatMap_cons, List.flatMap_cons, ih, marking.read_compiled _ _ compiled]

/-- The marks of a logical block: those of the model, and those of every copied key again. -/
theorem flatMap_logical (marking : Marking j m γ) (logical : j.mode = .logical)
    (own : j.ownBlock m = .ok start) (h : (j.compileModel m).answer memory.shorten = .ok block) :
    block.fields.flatMap marking.read = m.fields.flatMap marking.written ++
      (j.copyings m).flatMap fun entry => marking.written entry.2 := by
  have fields : block.fields.map Target.Field.bare = start.fields.map Target.Field.bare ++
      (j.addedFields memory.identifier m).map Target.Field.bare :=
    bareFields_logical logical own h
  rw [← marking.flatMap_bare, fields, List.flatMap_append, marking.flatMap_bare,
    marking.flatMap_bare, marking.flatMap_addedFields,
    marking.flatMap_compiled (forall₂_ownBlock logical own)]
  congr 1
  -- a copy shows what its key shows, and the key is compiled as on its own
  refine List.flatMap_congr ?_
  intro entry hentry
  obtain ⟨g, _, compiled, copied⟩ := exists_copy logical own hentry memory.identifier
  rw [copied, ← marking.read_compiled _ _ compiled, ← marking.read_copiedAs]
  exact List.append_nil _

/-- **Marks stay distinct through widening exactly when no copied key has one.**  The key itself
    has it already. -/
theorem nodup_iff (marking : Marking j m γ) (logical : j.mode = .logical)
    (own : j.ownBlock m = .ok start) (h : (j.compileModel m).answer memory.shorten = .ok block)
    (distinct : (m.fields.flatMap marking.written).Nodup) :
    (block.fields.flatMap marking.read).Nodup ↔
      ∀ entry ∈ j.copyings m, marking.written entry.2 = [] := by
  rw [marking.flatMap_logical logical own h, List.nodup_append']
  constructor
  · intro ⟨_, _, apart⟩ entry hentry
    rw [List.eq_nil_iff_forall_not_mem]
    -- a mark of a copied key would stand on both sides: the key is a field of the model too
    intro mark hmark
    exact apart (List.mem_flatMap.2 ⟨entry.2, mem_fields_of_copyings hentry, hmark⟩)
      (List.mem_flatMap.2 ⟨entry, hentry, hmark⟩)
  · intro unmarked
    have none : ((j.copyings m).flatMap fun entry => marking.written entry.2) = [] :=
      List.flatMap_eq_nil_iff.2 unmarked
    rw [none]
    exact ⟨distinct, List.nodup_nil, List.disjoint_nil_right _⟩

end Marking

/-! ## §2. Primary keys and column names -/

/-- Single marks are distinct where there is at most one. -/
theorem nodup_marks_iff {α : Type} (lacks : α → Bool) (xs : List α) :
    (xs.flatMap fun x => if lacks x then [] else [()]).Nodup ↔
      (xs.filter fun x => !lacks x).length ≤ 1 := by
  have length : (xs.flatMap fun x => if lacks x then [] else [()]).length =
      (xs.filter fun x => !lacks x).length := by
    induction xs with
    | nil => rfl
    | cons x xs ih =>
      rw [List.flatMap_cons, List.length_append, ih, List.filter_cons]
      cases lacks x with
      | true => simp
      | false => simp [Nat.add_comm]
  rw [← length]
  cases xs.flatMap fun x => if lacks x then [] else [()] with
  | nil => simp
  | cons first rest =>
    cases rest with
    | nil => simp
    | cons second rest => simp

/-- The fields with an `@id`, by one mark each. -/
def idMarking (j : Job) (m : Model) : Marking j m Unit where
  read g := if (g.usagesOf "@id").isEmpty then [] else [()]
  written f := if (f.emitted "@id").isEmpty then [] else [()]
  read_bare g := by rw [Target.Field.usagesOf_bare (by decide)]
  read_nil g none := by
    unfold Target.Field.usagesOf
    rw [none]
    rfl
  read_copiedAs g name := by rw [isEmpty_usagesOf_copiedAs]
  read_compiled f g ok := by rw [isEmpty_usagesOf (by decide) (by decide) ok]

end Job

/-- The text of a value that is one. -/
def Target.Value.asString? : Value → Option String
  | .string text => some text
  | _ => none

theorem Expression.asString?_toValue {e : Expression} {v : Target.Value} (h : e.toValue = .ok v) :
    v.asString? = e.asString? := by
  cases gives_of_toValue h <;> rfl

/-- The argument of a usage as it is written. -/
def AttributeArg.written (arg : AttributeArg) : Argument Expression :=
  ⟨arg.name, arg.value⟩

/-- The column names that a `@map` gives, read off its arguments as they are written. -/
def Attribute.columnNames (a : Attribute) : List String :=
  (Argument.valuesOf "name" (Registry.builtinParams "@map")
    (a.args.map AttributeArg.written)).filterMap (·.asString?)

namespace Target

/-- The column names that a `@map` gives. -/
def NamedAttribute.columnNames (a : NamedAttribute) : List String :=
  (a.valuesOf "name").filterMap Value.asString?

/-- The column names of a field. -/
def Field.columnNames (g : Field) : List String :=
  (g.usagesOf "@map").flatMap NamedAttribute.columnNames

end Target

/-- A compiled `@map` gives the column names that are written. -/
theorem columnNames_toTarget {a : Attribute} {t : Target.NamedAttribute}
    (named : a.isNamed "@map" = true) (h : a.toTarget = .ok (.named t)) :
    t.columnNames = a.columnNames := by
  obtain ⟨args, same, corresponding⟩ := Attribute.toTarget_eq_ok (by decide) named h
  cases same
  exact Expression.filterMap_toValue Expression.asString?_toValue
    (Argument.forall₂_valuesOf (List.forall₂_map_left_iff.2 corresponding) _ _)

theorem flatMap_columnNames_toTarget {as : List Attribute} {ts : List Target.NamedAttribute}
    (h : List.Forall₂ (fun a t => a.isNamed "@map" = true ∧ a.toTarget = .ok (.named t)) as ts) :
    ts.flatMap (·.columnNames) = as.flatMap Attribute.columnNames := by
  induction h with
  | nil => rfl
  | cons compiled _ ih =>
    rw [List.flatMap_cons, List.flatMap_cons, ih, columnNames_toTarget compiled.1 compiled.2]

namespace Job

variable {j : Job} {m : Model}

/-- The column names that `@map`s give. -/
def columnMarking (j : Job) (m : Model) : Marking j m String where
  read := Target.Field.columnNames
  written f := (f.emitted "@map").flatMap Attribute.columnNames
  read_bare g := by
    unfold Target.Field.columnNames
    rw [Target.Field.usagesOf_bare (by decide)]
  read_nil g none := by
    unfold Target.Field.columnNames Target.Field.usagesOf
    rw [none]
    rfl
  read_copiedAs g name := by
    unfold Target.Field.columnNames
    rw [usagesOf_copiedAs, if_neg (by decide)]
  read_compiled f g ok :=
    flatMap_columnNames_toTarget (forall₂_usagesOf (by decide) (by decide) ok)

theorem hasAttribute_of_emitted {f : Field} {name : String}
    (h : (!(f.emitted name).isEmpty) = true) : f.hasAttribute name = true := by
  have some : f.emitted name ≠ [] := by simpa using h
  obtain ⟨a, ha⟩ := List.exists_mem_of_ne_nil _ some
  obtain ⟨here, emitted⟩ := List.mem_filter.1 ha
  exact List.find?_isSome.2 ⟨a, here, (Bool.and_eq_true_iff.1 emitted).2⟩

theorem emitted_sublist (f : Field) (name : String) :
    (f.emitted name).Sublist (f.attributes.filter (·.isNamed name)) := by
  unfold Field.emitted
  rw [← List.filter_filter]
  exact List.filter_sublist

/-- **When a block still has one primary key, and distinct column names.**  Of a model with at most
    one `@id`, and with distinct names in its `@map`s, the logical block has these properties
    exactly when no copied key carries an `@id`, or a `@map` with a name. -/
theorem copied_marks_iff {d : Document} {j : Job} {memory memory' : Memory}
    {out : Target.Schema} (resolved : Schema.ofDocument d = .ok j.schema)
    (logical : j.mode = .logical) (built : j.build memory = (.ok out, memory'))
    {m : Model} (hm : m ∈ j.concreteModels)
    (oneId : (m.fields.filter (·.hasAttribute "@id")).length ≤ 1)
    (columns : (m.fields.flatMap fun f =>
      (f.attributes.filter (·.isNamed "@map")).flatMap Attribute.columnNames).Nodup) :
    ∃ block, out.findModel? m.name = some block ∧
      ((block.fields.filter fun g => !(g.usagesOf "@id").isEmpty).length ≤ 1 ↔
        ∀ entry ∈ j.copyings m, entry.2.emitted "@id" = []) ∧
      ((block.fields.flatMap Target.Field.columnNames).Nodup ↔
        ∀ entry ∈ j.copyings m, (entry.2.emitted "@map").flatMap Attribute.columnNames = []) := by
  obtain ⟨start, block, own, found, ok⟩ := exists_own_and_block resolved built hm
  refine ⟨block, found, ?_, ?_⟩
  · have once : (m.fields.flatMap (idMarking j m).written).Nodup := by
      refine (nodup_marks_iff (fun f : Field => (f.emitted "@id").isEmpty) m.fields).2 ?_
      exact (List.monotone_filter_right _ fun f => hasAttribute_of_emitted).length_le.trans oneId
    rw [← nodup_marks_iff fun g : Target.Field => (g.usagesOf "@id").isEmpty]
    refine ((idMarking j m).nodup_iff logical own ok once).trans (forall₂_congr ?_)
    intro entry _
    simp [idMarking]
  · refine (columnMarking j m).nodup_iff logical own ok (columns.sublist ?_)
    exact List.Sublist.flatMap_right _ fun f _ => (emitted_sublist f "@map").flatMap _

/-- The names of the fields of a block with an `@id`. -/
def idNames (block : Target.ModelBlock) : List String :=
  (block.fields.filter fun g => !(g.usagesOf "@id").isEmpty).map (·.name)

/-- The key of an avatar is neither a primary key nor mapped, so users keep one primary key and
    distinct column names. -/
theorem user_marks_kept :
    ∃ (j : Job) (memory' : Memory) (out : Target.Schema),
      Schema.ofDocument (avatars [{ name := "@unique" }] "avatarId") = .ok j.schema ∧
      j.mode = .logical ∧ j.build (Memory.ofLength Identifier.standardLength) = (.ok out, memory') ∧
      ∃ user ∈ j.concreteModels, (j.copyings user).map (·.2.name) = ["avatarId"] ∧
        (user.fields.filter (·.hasAttribute "@id")).length ≤ 1 ∧
        (user.fields.flatMap fun f =>
          (f.attributes.filter (·.isNamed "@map")).flatMap Attribute.columnNames).Nodup ∧
        ∃ block, out.findModel? user.name = some block ∧
          ((block.fields.filter fun g => !(g.usagesOf "@id").isEmpty).length ≤ 1 ↔
            ∀ entry ∈ j.copyings user, entry.2.emitted "@id" = []) ∧
          ((block.fields.flatMap Target.Field.columnNames).Nodup ↔ ∀ entry ∈ j.copyings user,
            (entry.2.emitted "@map").flatMap Attribute.columnNames = []) ∧
          idNames block = ["id"] ∧
          block.fields.flatMap Target.Field.columnNames = ["user_name"] := by
  have builds : (avatars [{ name := "@unique" }] "avatarId").buildsTo .logical (fun j out =>
      j.concreteModels.any fun user => (j.copyings user).map (·.2.name) == ["avatarId"] &&
        decide ((user.fields.filter (·.hasAttribute "@id")).length ≤ 1) &&
        decide (user.fields.flatMap fun f =>
          (f.attributes.filter (·.isNamed "@map")).flatMap Attribute.columnNames).Nodup &&
        (out.findModel? user.name).all fun block => idNames block == ["id"] &&
          block.fields.flatMap Target.Field.columnNames == ["user_name"]) = true := by
    decide +kernel
  obtain ⟨j, out, memory', resolved, logical, built, test⟩ := Document.exists_build builds
  simp only [Bool.and_eq_true, List.any_eq_true, beq_iff_eq, Option.all_eq_true,
    decide_eq_true_eq] at test
  obtain ⟨user, huser, ⟨⟨copied, oneId⟩, columns⟩, marks⟩ := test
  obtain ⟨block, found, ids, maps⟩ :=
    copied_marks_iff resolved logical built huser oneId columns
  obtain ⟨idName, column⟩ := marks block found
  exact ⟨j, memory', out, resolved, logical, built, user, huser, copied, oneId, columns, block,
    found, ids, maps, idName, column⟩

/-- **A copied key keeps its marks.**  On a primary key as key of the avatar the block has two
    fields with an `@id`; on a mapped key it has two columns of one name. -/
theorem marks_copied_along :
    (∃ (j : Job) (memory' : Memory) (out : Target.Schema),
      Schema.ofDocument (avatars [] "id") = .ok j.schema ∧ j.mode = .logical ∧
      j.build (Memory.ofLength Identifier.standardLength) = (.ok out, memory') ∧
      ∃ user ∈ j.concreteModels, (user.fields.filter (·.hasAttribute "@id")).length ≤ 1 ∧
        ∃ block, out.findModel? user.name = some block ∧
          idNames block = ["id", "delegate_aux_User_id_Video"]) ∧
    ∃ (j : Job) (memory' : Memory) (out : Target.Schema),
      Schema.ofDocument (avatars [withText "@map" none "avatar_id"] "avatarId") = .ok j.schema ∧
      j.mode = .logical ∧ j.build (Memory.ofLength Identifier.standardLength) = (.ok out, memory') ∧
      ∃ user ∈ j.concreteModels, (user.fields.flatMap fun f =>
          (f.attributes.filter (·.isNamed "@map")).flatMap Attribute.columnNames).Nodup ∧
        ∃ block, out.findModel? user.name = some block ∧
          block.fields.flatMap Target.Field.columnNames =
            ["user_name", "avatar_id", "avatar_id"] := by
  constructor
  · have builds : (avatars [] "id").buildsTo .logical (fun j out => j.concreteModels.any fun user =>
        decide ((user.fields.filter (·.hasAttribute "@id")).length ≤ 1) &&
        (out.findModel? user.name).any fun block =>
          idNames block == ["id", "delegate_aux_User_id_Video"]) = true := by
      decide +kernel
    obtain ⟨j, out, memory', resolved, logical, built, test⟩ := Document.exists_build builds
    simp only [Bool.and_eq_true, List.any_eq_true, beq_iff_eq, Option.any_eq_true,
      decide_eq_true_eq] at test
    obtain ⟨user, huser, oneId, block, found, ids⟩ := test
    exact ⟨j, memory', out, resolved, logical, built, user, huser, oneId, block, found, ids⟩
  · have builds : (avatars [withText "@map" none "avatar_id"] "avatarId").buildsTo .logical
        (fun j out => j.concreteModels.any fun user =>
          decide (user.fields.flatMap fun f =>
            (f.attributes.filter (·.isNamed "@map")).flatMap Attribute.columnNames).Nodup &&
          (out.findModel? user.name).any fun block =>
            block.fields.flatMap Target.Field.columnNames ==
              ["user_name", "avatar_id", "avatar_id"]) = true := by
      decide +kernel
    obtain ⟨j, out, memory', resolved, logical, built, test⟩ := Document.exists_build builds
    simp only [Bool.and_eq_true, List.any_eq_true, beq_iff_eq, Option.any_eq_true,
      decide_eq_true_eq] at test
    obtain ⟨user, huser, columns, block, found, names⟩ := test
    exact ⟨j, memory', out, resolved, logical, built, user, huser, columns, block, found, names⟩

end Job

end DelegateSchema
