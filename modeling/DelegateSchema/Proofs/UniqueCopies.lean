/-
  DelegateSchema.Proofs.UniqueCopies — the constraint names of copied keys.

  The constraint of a unique key has a name, and a copy of the key needs another.  The name is
  looked for among the arguments passed as `map`.  One that was passed by position is not found
  there: it stays, and the new name is passed beside it.

  Main results:
    * `length_valuesOf_cons` — how often a first parameter is bound,
    * `valuesOf_nameConstraint_iff` — when naming a constraint binds its name once,
    * `unique_copies_named_iff` — which copies of unique keys have one constraint name, the new one,
    * `avatar_key_named_twice` — one that has two.
-/
import DelegateSchema.Proofs.ClosedRelations
import DelegateSchema.Proofs.KeyCopies
import DelegateSchema.Proofs.Reordering

namespace DelegateSchema

open Identifier (Memory)

/-! ## §1. Parameters and the values bound to them -/

namespace Argument

variable {ε : Type}

/-- The values that arguments bind to a parameter: those passed under its name, and one passed by
    position in its place. -/
def valuesOf (param : String) : (params : List String) → List (Argument ε) → List ε
  | _, [] => []
  | params, arg :: rest =>
    (if arg.name.or params.head? = some param then [arg.value] else []) ++
      valuesOf param (if arg.name.isSome then params else params.tail) rest

theorem mem_valuesOf_of_named {param : String} {value : ε} {args : List (Argument ε)}
    (h : ⟨some param, value⟩ ∈ args) (params : List String) :
    value ∈ valuesOf param params args := by
  induction args generalizing params with
  | nil => cases h
  | cons arg rest ih =>
    unfold valuesOf
    rcases List.mem_cons.1 h with rfl | below
    · simp
    · exact List.mem_append_right _ (ih below _)

/-- A bound value is the value of an argument. -/
theorem exists_of_mem_valuesOf {param : String} {params : List String} {args : List (Argument ε)}
    {value : ε} (h : value ∈ valuesOf param params args) : ∃ arg ∈ args, arg.value = value := by
  induction args generalizing params with
  | nil => cases h
  | cons arg rest ih =>
    unfold valuesOf at h
    rcases List.mem_append.1 h with here | below
    · have same : value = arg.value := by
        split at here
        next => exact List.mem_singleton.1 here
        next => cases here
      exact ⟨arg, List.mem_cons_self, same.symm⟩
    · obtain ⟨later, hlater, same⟩ := ih below
      exact ⟨later, List.mem_cons_of_mem _ hlater, same⟩

theorem length_valuesOf_of_notMem {param : String} {params : List String} (h : param ∉ params)
    (args : List (Argument ε)) :
    (valuesOf param params args).length = (args.map (·.name)).count (some param) := by
  induction args generalizing params with
  | nil => rfl
  | cons arg rest ih =>
    obtain ⟨name, value⟩ := arg
    cases name with
    | none =>
      have elsewhere : params.head? ≠ some param := fun here => h (List.mem_of_mem_head? here)
      have later : param ∉ params.tail := fun below => h (List.mem_of_mem_tail below)
      simp [valuesOf, elsewhere, ih later]
    | some name =>
      by_cases here : name = param
      · simp [valuesOf, here, ih h, Nat.add_comm]
      · simp [valuesOf, here, ih h]

/-- **How often a first parameter is bound**: once for each argument passed under its name, and
    once more if any is passed by position. -/
theorem length_valuesOf_cons {param : String} {others : List String} (h : param ∉ others)
    (args : List (Argument ε)) :
    (valuesOf param (param :: others) args).length =
      (args.map (·.name)).count (some param) + if none ∈ args.map (·.name) then 1 else 0 := by
  induction args with
  | nil => rfl
  | cons arg rest ih =>
    obtain ⟨name, value⟩ := arg
    cases name with
    | none =>
      -- this argument takes the place, and for the rest the parameter has none
      simp [valuesOf, length_valuesOf_of_notMem h, Nat.add_comm]
    | some name =>
      by_cases here : name = param
      · simp [valuesOf, here, ih]
        omega
      · simp [valuesOf, here, ih]

/-- Bound values correspond where arguments do. -/
theorem forall₂_valuesOf {δ : Type} {R : ε → δ → Prop} {args : List (Argument ε)}
    {args' : List (Argument δ)}
    (h : List.Forall₂ (fun arg arg' => arg'.name = arg.name ∧ R arg.value arg'.value) args args')
    (param : String) (params : List String) :
    List.Forall₂ R (valuesOf param params args) (valuesOf param params args') := by
  induction h generalizing params with
  | nil => exact List.Forall₂.nil
  | @cons arg arg' rest rest' same _ ih =>
    obtain ⟨name, related⟩ := same
    unfold valuesOf
    rw [name]
    refine List.rel_append ?_ (ih _)
    split
    next => exact List.Forall₂.cons related List.Forall₂.nil
    next => exact List.Forall₂.nil

end Argument

/-- The parameters of a built-in attribute, in positional order. -/
def Registry.builtinParams (name : String) : List String :=
  ((standard.get? name).map (·.params)).getD []

/-- The values that an attribute binds to a parameter of the built-in attribute of its name. -/
def Target.NamedAttribute.valuesOf (a : NamedAttribute) (param : String) : List Value :=
  Argument.valuesOf param (Registry.builtinParams a.name) a.args

/-- Of arguments with these names all are passed by name, and at most one to the parameter. -/
def PassedByName (param : String) (names : List (Option String)) : Prop :=
  none ∉ names ∧ names.count (some param) ≤ 1

instance (param : String) (names : List (Option String)) : Decidable (PassedByName param names) :=
  inferInstanceAs (Decidable (_ ∧ _))

/-! ## §2. Names of constraints -/

namespace Job

theorem names_setArg (a : Target.NamedAttribute) (name : String) (value : Target.Value) :
    (a.setArg name value).args.map (·.name) = a.args.map (·.name) := by
  refine Target.map_updateFirst ?_ a.args
  intro arg
  rfl

/-- Naming a constraint passes its name under `map`. -/
theorem mem_args_nameConstraint (constraint : String) (a : Target.NamedAttribute) :
    ⟨some "map", .string constraint⟩ ∈ (nameConstraint constraint a).args := by
  unfold nameConstraint
  cases found : a.arg? "map" with
  | some arg =>
    obtain ⟨first, named, changed⟩ := Target.exists_mem_updateFirst
      (fun arg : Target.Arg => { arg with value := .string constraint })
      (List.mem_of_find?_eq_some found) (List.find?_some found)
    have named : first.name = some "map" := by simpa using named
    rw [← named]
    exact changed
  | none => exact List.mem_append_right _ (List.mem_singleton_self _)

/-- It passes one more argument only where none was passed as `map`. -/
theorem names_nameConstraint (constraint : String) (a : Target.NamedAttribute) :
    (nameConstraint constraint a).args.map (·.name) =
      if some "map" ∈ a.args.map (·.name) then a.args.map (·.name)
      else a.args.map (·.name) ++ [some "map"] := by
  unfold nameConstraint
  cases found : a.arg? "map" with
  | some arg =>
    have named : arg.name = some "map" := by simpa using List.find?_some found
    have passed : some "map" ∈ a.args.map (·.name) :=
      List.mem_map.2 ⟨arg, List.mem_of_find?_eq_some found, named⟩
    rw [if_pos passed]
    exact names_setArg a _ _
  | none =>
    have passed : some "map" ∉ a.args.map (·.name) := by
      simpa [Target.NamedAttribute.arg?] using found
    rw [if_neg passed]
    exact List.map_append

/-- How often the name is bound then: as often as it was, but at least once, and once more for an
    argument passed by position. -/
theorem length_valuesOf_nameConstraint {a : Target.NamedAttribute} (isUnique : a.name = "@unique")
    (constraint : String) : ((nameConstraint constraint a).valuesOf "map").length =
      max 1 ((a.args.map (·.name)).count (some "map")) +
        if none ∈ a.args.map (·.name) then 1 else 0 := by
  have params : Registry.builtinParams (nameConstraint constraint a).name =
      "map" :: ["length", "sort", "clustered"] := by
    rw [name_nameConstraint, isUnique]
    decide
  unfold Target.NamedAttribute.valuesOf
  rw [params, Argument.length_valuesOf_cons (by decide), names_nameConstraint]
  split
  next passed =>
    have positive := List.count_pos_iff.2 passed
    omega
  next passed => simp [List.count_eq_zero_of_not_mem passed]

/-- **When naming a constraint binds its name once**: where no argument was passed by position,
    and not more than one as `map`. -/
theorem valuesOf_nameConstraint_iff {a : Target.NamedAttribute} (isUnique : a.name = "@unique")
    (constraint : String) :
    (nameConstraint constraint a).valuesOf "map" = [.string constraint] ↔
      PassedByName "map" (a.args.map (·.name)) := by
  have bound : .string constraint ∈ (nameConstraint constraint a).valuesOf "map" :=
    Argument.mem_valuesOf_of_named (mem_args_nameConstraint constraint a) _
  -- the new name is always bound, so it is enough to count
  have once : (nameConstraint constraint a).valuesOf "map" = [.string constraint] ↔
      ((nameConstraint constraint a).valuesOf "map").length = 1 := by
    constructor
    · intro same
      rw [same, List.length_singleton]
    · intro single
      obtain ⟨value, same⟩ := List.length_eq_one_iff.1 single
      rw [same, List.mem_singleton] at bound
      rw [same, bound]
  rw [once, length_valuesOf_nameConstraint isUnique]
  unfold PassedByName
  split
  next positional =>
    constructor
    · intro single
      omega
    · intro ⟨named, _⟩
      exact absurd positional named
  next named =>
    constructor
    · intro single
      exact ⟨named, by omega⟩
    · intro ⟨_, few⟩
      omega

/-! ## §3. Copies of unique keys -/

variable {j : Job} {m : Model}

theorem forall₂_filter_isSome {α γ : Type} (part : α → Option γ) (xs : List α) :
    List.Forall₂ (fun x c => part x = some c) (xs.filter fun x => (part x).isSome)
      (xs.filterMap part) := by
  induction xs with
  | nil => exact List.Forall₂.nil
  | cons x xs ih =>
    cases result : part x with
    | none => simpa [result] using ih
    | some c => simpa [result] using ih

/-- Where two partial functions have the same results, their arguments correspond one by one. -/
theorem forall₂_of_filterMap_eq {α β γ : Type} {part : α → Option γ} {part' : β → Option γ}
    {xs : List α} {ys : List β} (h : xs.filterMap part = ys.filterMap part') :
    List.Forall₂ (fun x y => ∃ c, part x = some c ∧ part' y = some c)
      (xs.filter fun x => (part x).isSome) (ys.filter fun y => (part' y).isSome) := by
  have right := (forall₂_filter_isSome part' ys).flip
  rw [← h] at right
  exact forall₂_comp (forall₂_filter_isSome part xs) right

/-- A field is the copy of a unique key for a descendant: named as such, with the constraint of
    the first `@unique` named after it, and any further `@unique` as on the key. -/
structure UniqueCopy (identifier : String → String) (m : Model) (entry : Model × Field)
    (copy : Target.Field) : Prop where
  name_eq : copy.name = identifier (widenedName m entry.1 entry.2)
  renamed : ∃ usage usages unique uniques, entry.2.emitted "@unique" = usage :: usages ∧
    copy.usagesOf "@unique" = unique :: uniques ∧
    List.Forall₂ (fun a t => a.toTarget = .ok (.named t)) usages uniques ∧
    .string (copy.name ++ "_unique") ∈ unique.valuesOf "map" ∧
    (unique.valuesOf "map" = [.string (copy.name ++ "_unique")] ↔
      PassedByName "map" (usage.args.map (·.name)))

theorem UniqueCopy.congr {identifier : String → String} {entry : Model × Field}
    {copy copy' : Target.Field} (h : UniqueCopy identifier m entry copy)
    (names : copy'.name = copy.name)
    (usages : copy'.usagesOf "@unique" = copy.usagesOf "@unique") :
    UniqueCopy identifier m entry copy' := by
  constructor
  · rw [names]
    exact h.name_eq
  · rw [names, usages]
    exact h.renamed

theorem names_of_toTarget {a : Attribute} {t : Target.NamedAttribute} {name : String}
    (noText : Attribute.isPassthrough name = false) (named : a.isNamed name = true)
    (h : a.toTarget = .ok (.named t)) :
    t.name = name ∧ t.args.map (·.name) = a.args.map (·.name) := by
  obtain ⟨args, same, corresponding⟩ := Attribute.toTarget_eq_ok noText named h
  cases same
  refine ⟨rfl, ?_⟩
  rw [← List.forall₂_eq_eq_eq, List.forall₂_map_left_iff, List.forall₂_map_right_iff]
  refine corresponding.flip.imp ?_
  intro arg' arg ⟨same, _⟩
  exact same

/-- The copy of a key with a `@unique` is the copy of a unique key. -/
theorem uniqueCopy_copiedAs {identifier : String → String} {entry : Model × Field}
    {g : Target.Field} (ok : j.toTargetField m entry.2 = .ok g)
    (carried : entry.2.emitted "@unique" ≠ []) :
    UniqueCopy identifier m entry (g.copiedAs (identifier (widenedName m entry.1 entry.2))) := by
  refine ⟨rfl, ?_⟩
  have usages : List.Forall₂ (fun a t => a.isNamed "@unique" = true ∧ a.toTarget = .ok (.named t))
      (entry.2.emitted "@unique") (g.usagesOf "@unique") :=
    forall₂_usagesOf (by decide) (by decide) ok
  rw [usagesOf_copiedAs, if_pos rfl]
  cases emitted : entry.2.emitted "@unique" with
  | nil => exact absurd emitted carried
  | cons usage rest =>
    rw [emitted] at usages
    obtain ⟨original, others, ⟨named, compiled⟩, later, same⟩ := List.forall₂_cons_left_iff.1 usages
    rw [same, List.modifyHead_cons]
    obtain ⟨isUnique, names⟩ := names_of_toTarget (by decide) named compiled
    refine ⟨usage, rest, _, others, rfl, rfl, later.imp fun _ _ step => step.2, ?_, ?_⟩
    · exact Argument.mem_valuesOf_of_named (mem_args_nameConstraint _ original) _
    · rw [← names]
      exact valuesOf_nameConstraint_iff isUnique _

/-- The name of a field and its `@unique`s, if it has one. -/
def uniqueView (g : Target.Field) : Option (String × List Target.NamedAttribute) :=
  if (g.usagesOf "@unique").isEmpty then none else some (g.name, g.usagesOf "@unique")

/-- The fields with a `@unique`, as a reading. -/
def uniqueReading : Reading (String × List Target.NamedAttribute) where
  read g := (uniqueView g).toList
  read_bare g := by
    unfold uniqueView
    rw [Target.Field.usagesOf_bare (by decide)]
    rfl
  read_nil g none := by
    unfold uniqueView Target.Field.usagesOf
    rw [none]
    rfl

theorem isSome_uniqueView (g : Target.Field) :
    (uniqueView g).isSome = !(g.usagesOf "@unique").isEmpty := by
  unfold uniqueView
  split
  next none => simp [none]
  next some => simp [some]

theorem uniqueView_eq_some {g : Target.Field} {view : String × List Target.NamedAttribute}
    (h : uniqueView g = some view) : view = (g.name, g.usagesOf "@unique") := by
  unfold uniqueView at h
  split at h
  next => cases h
  next => exact (Option.some.inj h).symm

/-- **Which copies of unique keys have one constraint name, and the new one.**  In a logical block
    the generated fields with a `@unique` are the copies of the keys with one, in order.  Each binds
    the new name of its constraint; it binds no other exactly when the `@unique` of the key passes
    all arguments by name, and at most one as `map`. -/
theorem unique_copies_named_iff {d : Document} {j : Job} {memory memory' : Memory}
    {out : Target.Schema} (resolved : Schema.ofDocument d = .ok j.schema)
    (logical : j.mode = .logical) (built : j.build memory = (.ok out, memory'))
    {m : Model} (hm : m ∈ j.concreteModels) :
    ∃ block, out.findModel? m.name = some block ∧
      List.Forall₂ (UniqueCopy memory'.identifier m)
        ((j.copyings m).filter fun entry => !(entry.2.emitted "@unique").isEmpty)
        ((j.generatedFields m block).filter fun g => !(g.usagesOf "@unique").isEmpty) := by
  obtain ⟨start, block, own, found, ok⟩ := exists_own_and_block resolved built hm
  refine ⟨block, found, ?_⟩
  -- the copies to be made and the generated fields show the same names and the same `@unique`s
  have views : (j.copyings m).filterMap (fun entry =>
      (j.copyOf? memory'.identifier m entry.1 entry.2).bind uniqueView) =
      (j.generatedFields m block).filterMap uniqueView := by
    rw [List.filterMap_eq_flatMap_toList uniqueView, List.filterMap_eq_flatMap_toList]
    refine Eq.trans ?_ (flatMap_generatedFields logical own uniqueReading ok).symm
    refine List.flatMap_congr ?_
    intro entry _
    cases j.copyOf? memory'.identifier m entry.1 entry.2 with
    | none => rfl
    | some copy => exact (List.append_nil _).symm
  have carried : ∀ entry ∈ j.copyings m,
      ((j.copyOf? memory'.identifier m entry.1 entry.2).bind uniqueView).isSome =
        !(entry.2.emitted "@unique").isEmpty := by
    intro entry hentry
    obtain ⟨g, _, compiled, copied⟩ := exists_copy logical own hentry memory'.identifier
    rw [copied, Option.bind_some, isSome_uniqueView, isEmpty_usagesOf_copiedAs,
      isEmpty_usagesOf (by decide) (by decide) compiled]
  -- so they correspond one by one, and what is known of a copy is known of the field
  have pairs := forall₂_of_filterMap_eq views
  rw [List.filter_congr carried, funext isSome_uniqueView] at pairs
  have members : ∀ entry ∈ (j.copyings m).filter (fun entry =>
      !(entry.2.emitted "@unique").isEmpty), entry ∈ j.copyings m ∧
        (!(entry.2.emitted "@unique").isEmpty) = true :=
    fun entry hentry => List.mem_filter.1 hentry
  refine ((List.forall₂_and_left _ _).2 ⟨members, pairs⟩).imp ?_
  intro entry copy ⟨⟨hentry, emitted⟩, view, ofCopy, ofField⟩
  obtain ⟨g, _, compiled, copied⟩ := exists_copy logical own hentry memory'.identifier
  rw [copied, Option.bind_some] at ofCopy
  have same := (uniqueView_eq_some ofField).symm.trans (uniqueView_eq_some ofCopy)
  have emitted : entry.2.emitted "@unique" ≠ [] := by simpa using emitted
  exact (uniqueCopy_copiedAs compiled emitted).congr (congrArg (·.1) same) (congrArg (·.2) same)

/-- The names of the generated fields with a `@unique`, and what these bind to `map`. -/
def constraintNames (j : Job) (m : Model) (block : Target.ModelBlock) :
    List (String × List (List Target.Value)) :=
  ((j.generatedFields m block).filter fun g => !(g.usagesOf "@unique").isEmpty).map fun g =>
    (g.name, (g.usagesOf "@unique").map (·.valuesOf "map"))

/-- An attribute with one text as its argument, passed under a name or by position. -/
def withText (name : String) (param : Option String) (text : String) : Attribute :=
  { name, args := [{ name := param, value := .literal (.string text) }] }

/-- Users have an asset as avatar, on the key `key`, and videos are assets. -/
def avatars (attributes : List Attribute) (key : String) : Document where
  declarations := [
    .model {
      name := "Asset"
      isDelegate := true
      fields := [
        { name := "id", type := { scalar := some "Int" }, attributes := [{ name := "@id" }] }] },
    .model { name := "Video", superTypes := ["Asset"] },
    .model {
      name := "User"
      fields := [
        { name := "id", type := { scalar := some "Int" }, attributes := [{ name := "@id" }] },
        { name := "name"
          type := { scalar := some "String" }
          attributes := [withText "@map" none "user_name"] },
        { name := "avatarId", type := { scalar := some "Int" }, attributes },
        { name := "avatar"
          type := { reference := some "Asset" }
          attributes := [
            { name := "@relation"
              args := [keyList "fields" key, keyList "references" "id"] }] }] }]

/-- Where the constraint of the key is named by a `map` argument, the copy for videos has the new
    name only. -/
theorem avatar_key_renamed :
    ∃ (j : Job) (memory' : Memory) (out : Target.Schema),
      Schema.ofDocument (avatars [withText "@unique" (some "map") "avatar_key"] "avatarId") =
        .ok j.schema ∧
      j.mode = .logical ∧ j.build (Memory.ofLength Identifier.standardLength) = (.ok out, memory') ∧
      ∃ user ∈ j.concreteModels, user.name = "User" ∧
        ∃ block, out.findModel? user.name = some block ∧
          List.Forall₂ (UniqueCopy memory'.identifier user)
            ((j.copyings user).filter fun entry => !(entry.2.emitted "@unique").isEmpty)
            ((j.generatedFields user block).filter fun g => !(g.usagesOf "@unique").isEmpty) ∧
          j.constraintNames user block = [("delegate_aux_User_avatarId_Video",
            [[.string "delegate_aux_User_avatarId_Video_unique"]])] := by
  have builds : (avatars [withText "@unique" (some "map") "avatar_key"] "avatarId").buildsTo
      .logical (fun j out => j.concreteModels.any fun user => user.name == "User" &&
        (out.findModel? user.name).all fun block =>
          j.constraintNames user block == [("delegate_aux_User_avatarId_Video",
            [[.string "delegate_aux_User_avatarId_Video_unique"]])]) = true := by
    decide +kernel
  obtain ⟨j, out, memory', resolved, logical, built, test⟩ := Document.exists_build builds
  simp only [Bool.and_eq_true, List.any_eq_true, beq_iff_eq, Option.all_eq_true] at test
  obtain ⟨user, huser, isUser, names⟩ := test
  obtain ⟨block, found, copies⟩ := unique_copies_named_iff resolved logical built huser
  exact ⟨j, memory', out, resolved, logical, built, user, huser, isUser, block, found, copies,
    names block found⟩

/-- **A name passed by position is not replaced.**  The copy for videos then has two constraint
    names, and the first is that of the key. -/
theorem avatar_key_named_twice :
    ∃ (j : Job) (memory' : Memory) (out : Target.Schema),
      Schema.ofDocument (avatars [withText "@unique" none "avatar_key"] "avatarId") =
        .ok j.schema ∧
      j.mode = .logical ∧ j.build (Memory.ofLength Identifier.standardLength) = (.ok out, memory') ∧
      ∃ user ∈ j.concreteModels, user.name = "User" ∧
        ∃ block, out.findModel? user.name = some block ∧
          j.constraintNames user block = [("delegate_aux_User_avatarId_Video",
            [[.string "avatar_key", .string "delegate_aux_User_avatarId_Video_unique"]])] := by
  have builds : (avatars [withText "@unique" none "avatar_key"] "avatarId").buildsTo .logical
      (fun j out => j.concreteModels.any fun user => user.name == "User" &&
        (out.findModel? user.name).any fun block =>
          j.constraintNames user block == [("delegate_aux_User_avatarId_Video",
            [[.string "avatar_key", .string "delegate_aux_User_avatarId_Video_unique"]])]) =
      true := by
    decide +kernel
  obtain ⟨j, out, memory', resolved, logical, built, test⟩ := Document.exists_build builds
  simp only [Bool.and_eq_true, List.any_eq_true, beq_iff_eq, Option.any_eq_true] at test
  obtain ⟨user, huser, isUser, block, found, names⟩ := test
  exact ⟨j, memory', out, resolved, logical, built, user, huser, isUser, block, found, names⟩

end Job

end DelegateSchema
