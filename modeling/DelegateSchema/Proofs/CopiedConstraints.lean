/-
  DelegateSchema.Proofs.CopiedConstraints — composite unique constraints of copied keys.

  With a copied key come copies of the unique constraints that list it, where the key is replaced
  by its copy.  This is done one key at a time, and each time from the constraint as the model has
  it.  So a constraint that lists two keys of a relation is copied once for each of them, with the
  other left as it is, and no copy has both replaced.

  Main results:
    * `mem_uniques_logical` — the composite constraints of a logical block,
    * `copied_uniques` — when a constraint has a copy with all keys replaced,
    * `cover_constraint_split` — one that has none.
-/
import DelegateSchema.Proofs.UniqueCopies

namespace DelegateSchema

open Identifier (Memory ofShort)

/-! ## §1. Lists of fields -/

namespace Expression

/-- The name that an expression refers to, if it is a reference. -/
def target? : Expression → Option String
  | .reference target _ => some target
  | _ => none

/-- The names in an array of references. -/
def listedNames : Expression → List String
  | .array items => items.filterMap target?
  | _ => []

end Expression

namespace Target

/-- The names in an array of fields. -/
def Value.listedNames : Value → List String
  | .array items => items.filterMap fieldName?
  | _ => []

theorem Value.listedNames_fieldRefs (names : List String) :
    (Value.fieldRefs names).listedNames = names :=
  filterMap_fieldRef names

/-- The fields that a `@@unique` lists. -/
def NamedAttribute.uniqueFields (a : NamedAttribute) : List String :=
  ((a.valuesOf "fields").head?.map Value.listedNames).getD []

/-- The lists of fields that the unique constraints of a block are on. -/
def ModelBlock.uniques (b : ModelBlock) : List (List String) :=
  (b.attributes.filterMap (Attribute.as? "@@unique")).map NamedAttribute.uniqueFields

end Target

theorem Expression.fieldName?_toValue {e : Expression} {v : Target.Value} (h : e.toValue = .ok v) :
    v.fieldName? = e.target? := by
  cases gives_of_toValue h <;> rfl

/-- An array of references gives an array of fields of the same names. -/
theorem Expression.listedNames_toValue {e : Expression} {v : Target.Value} (h : e.toValue = .ok v) :
    v.listedNames = e.listedNames := by
  cases gives_of_toValue h with
  | array each => exact filterMap_toValue fieldName?_toValue each
  | string s => rfl
  | number n => rfl
  | boolean b => rfl
  | field target args texts => rfl
  | call function args texts => rfl

/-! ## §2. The constraints of a model -/

namespace Job

variable {j : Job} {m : Model}

theorem attributes_ownBlock {b : Target.ModelBlock} (h : j.ownBlock m = .ok b) :
    targetAttributes m.attributes = .ok b.attributes := by
  unfold ownBlock at h
  obtain ⟨fields, _, h⟩ := bind_ok_iff.1 h
  obtain ⟨attributes, ok, h⟩ := bind_ok_iff.1 h
  cases pure_ok_iff.1 h
  exact ok

/-- What a constraint of the own block of a model is on, is listed by some argument of a
    `@@unique` of the model. -/
theorem exists_listed_of_uniques {start : Target.ModelBlock} (own : j.ownBlock m = .ok start)
    {names : List String} (h : names ∈ start.uniques) {name : String} (hname : name ∈ names) :
    ∃ a ∈ m.attributesNamed "@@unique", ∃ arg ∈ a.args, name ∈ arg.value.listedNames := by
  obtain ⟨t, ht, rfl⟩ := List.mem_map.1 h
  obtain ⟨compiled, hcompiled, isUnique⟩ := List.mem_filterMap.1 ht
  obtain ⟨a, ha, ok⟩ := forall₂_exists_left (mapM_ok_iff.1 (attributes_ownBlock own)) hcompiled
  obtain ⟨ha, target⟩ := List.mem_filter.1 ha
  have named : a.isNamed "@@unique" = true := by
    rw [← Attribute.isNamed_toTarget (by decide) target ok]
    by_contra other
    rw [Target.Attribute.as?_eq_none (by simpa using other)] at isUnique
    cases isUnique
  obtain ⟨args, rfl, corresponding⟩ := Attribute.toTarget_eq_ok (by decide) named ok
  cases isUnique
  refine ⟨a, List.mem_filter.2 ⟨ha, named⟩, ?_⟩
  unfold Target.NamedAttribute.uniqueFields at hname
  cases first : (Target.NamedAttribute.valuesOf ⟨"@@unique", args⟩ "fields").head? with
  | none =>
    rw [first] at hname
    cases hname
  | some value =>
    rw [first] at hname
    obtain ⟨arg', harg', rfl⟩ := Argument.exists_of_mem_valuesOf (List.mem_of_mem_head? first)
    obtain ⟨arg, harg, _, given⟩ := forall₂_exists_left corresponding harg'
    refine ⟨arg, harg, ?_⟩
    rw [← Expression.listedNames_toValue given]
    exact hname

/-! ## §3. The constraints of a logical block -/

/-- The name of the copy for a descendant, where the name is that of one of the keys. -/
def replica (identifier : String → String) (m concrete : Model) (keys : List Field)
    (name : String) : String :=
  match keys.find? (·.name == name) with
  | some key => identifier (widenedName m concrete key)
  | none => name

/-- A list of fields with the keys replaced by their copies for a descendant. -/
def replaceKeys (identifier : String → String) (m concrete : Model) (keys : List Field)
    (names : List String) : List String :=
  names.map (replica identifier m concrete keys)

variable {identifier : String → String} {concrete : Model}

theorem replica_singleton (key : Field) (name : String) :
    replica identifier m concrete [key] name =
      if name = key.name then identifier (widenedName m concrete key) else name := by
  unfold replica
  by_cases here : key.name = name
  · simp [here]
  · simp [here, Ne.symm here]

theorem replaceKey?_eq (key copy : String) (items : List Expression) :
    replaceKey? key copy items = if key ∈ (Expression.array items).listedNames then
      some ((Expression.array items).listedNames.map fun name => if name = key then copy else name)
      else none := by
  show (if (Expression.array items).listedNames.contains key = true then
    some ((Expression.array items).listedNames.map fun name => if name = key then copy else name)
    else none) = _
  simp only [List.contains_iff_mem]

theorem copiedConstraint?_eq_some_iff {key : Field} {unique : Attribute} {t : Target.Attribute} :
    copiedConstraint? key.name (identifier (widenedName m concrete key)) unique = some t ↔
      ∃ names, (unique.arg? "fields").map Expression.listedNames = some names ∧
        key.name ∈ names ∧ t = .of "@@unique" [.positional
          (.fieldRefs (replaceKeys identifier m concrete [key] names))] := by
  have replaced : replica identifier m concrete [key] = fun name =>
      if name = key.name then identifier (widenedName m concrete key) else name :=
    funext (replica_singleton key)
  unfold copiedConstraint? replaceKeys
  rw [replaced]
  split
  next items listed =>
    rw [listed, replaceKey?_eq]
    split
    next here => simp [here, eq_comm]
    next missing => simp [missing]
  next unlisted =>
    -- whatever is not an array lists no field
    constructor
    · intro h
      cases h
    · intro ⟨names, listed, here, _⟩
      obtain ⟨value, hvalue, rfl⟩ := Option.map_eq_some_iff.1 listed
      cases value with
      | array items => exact absurd hvalue (unlisted items)
      | _ => cases here

/-- The constraints that come with a copied key: one for each `@@unique` that lists the key. -/
theorem mem_constraintsFor {key : Field} {t : Target.Attribute} :
    t ∈ constraintsFor identifier m concrete key ↔
      ∃ unique ∈ m.attributesNamed "@@unique", ∃ names,
        (unique.arg? "fields").map Expression.listedNames = some names ∧ key.name ∈ names ∧
        t = .of "@@unique" [.positional
          (.fieldRefs (replaceKeys identifier m concrete [key] names))] := by
  unfold constraintsFor
  rw [List.mem_filterMap]
  simp only [copiedConstraint?_eq_some_iff]

theorem addedConstraints_eq : j.addedConstraints identifier m =
    (j.copyings m).flatMap fun entry => constraintsFor identifier m entry.1 entry.2 := by
  unfold addedConstraints copyings
  rw [List.flatMap_assoc]
  refine List.flatMap_congr ?_
  intro step _
  rw [List.flatMap_map]

/-- A constraint that comes with a copied key is on the list that it was built from. -/
theorem uniqueFields_of_fieldRefs (names : List String) :
    Target.NamedAttribute.uniqueFields ⟨"@@unique", [.positional (.fieldRefs names)]⟩ = names :=
  Target.Value.listedNames_fieldRefs names

/-- **The composite constraints of a logical block** are those of the model and, for every copied
    key, each of them that lists the key, with that key replaced. -/
theorem mem_uniques_logical {memory : Memory} {start block : Target.ModelBlock}
    (logical : j.mode = .logical) (own : j.ownBlock m = .ok start)
    (h : (j.compileModel m).answer memory.shorten = .ok block) {list : List String} :
    list ∈ block.uniques ↔ list ∈ start.uniques ∨
      ∃ entry ∈ j.copyings m, ∃ unique ∈ m.attributesNamed "@@unique", ∃ names,
        (unique.arg? "fields").map Expression.listedNames = some names ∧ entry.2.name ∈ names ∧
        list = replaceKeys memory.identifier m entry.1 [entry.2] names := by
  unfold Target.ModelBlock.uniques
  rw [attributes_logical logical own h, List.filterMap_append, List.map_append, List.mem_append,
    addedConstraints_eq]
  refine or_congr Iff.rfl ?_
  constructor
  · intro added
    obtain ⟨a, ha, rfl⟩ := List.mem_map.1 added
    obtain ⟨t, ht, isUnique⟩ := List.mem_filterMap.1 ha
    obtain ⟨entry, hentry, ht⟩ := List.mem_flatMap.1 ht
    obtain ⟨unique, hunique, names, listed, here, rfl⟩ := mem_constraintsFor.1 ht
    cases isUnique
    exact ⟨entry, hentry, unique, hunique, names, listed, here, uniqueFields_of_fieldRefs _⟩
  · intro ⟨entry, hentry, unique, hunique, names, listed, here, same⟩
    have member : Target.Attribute.of "@@unique" [.positional
        (.fieldRefs (replaceKeys memory.identifier m entry.1 [entry.2] names))] ∈
          constraintsFor memory.identifier m entry.1 entry.2 :=
      mem_constraintsFor.2 ⟨unique, hunique, names, listed, here, rfl⟩
    rw [same, ← uniqueFields_of_fieldRefs (replaceKeys _ m entry.1 [entry.2] names)]
    exact List.mem_map_of_mem (List.mem_filterMap.2
      ⟨_, List.mem_flatMap.2 ⟨entry, hentry, member⟩, rfl⟩)

/-! ## §4. Constraints with all keys replaced -/

/-- The keys that a list of fields has are all of one name. -/
def MeetsOneKey (keys : List Field) (names : List String) : Prop :=
  ∀ key ∈ keys, ∀ key' ∈ keys, key.name ∈ names → key'.name ∈ names → key.name = key'.name

/-- No `@@unique` of a model lists a field that is named like a generated one. -/
def PlainUniques (m : Model) : Prop :=
  ∀ a ∈ m.attributesNamed "@@unique", ∀ arg ∈ a.args, ∀ name ∈ arg.value.listedNames,
    ¬ Identifier.start.toList <+: name.toList

instance (m : Model) : Decidable (PlainUniques m) :=
  inferInstanceAs (Decidable (∀ a ∈ _, ∀ arg ∈ _, ∀ name ∈ _, ¬ _))

theorem replica_of_mem {keys : List Field} {key : Field} (hkey : key ∈ keys) :
    replica identifier m concrete keys key.name = identifier (widenedName m concrete key) := by
  unfold replica
  cases found : keys.find? (·.name == key.name) with
  | none => simpa using List.find?_eq_none.1 found key hkey
  | some first =>
    have same : first.name = key.name := by simpa using List.find?_some found
    exact congrArg identifier (widenedName_inj_left.2 same)

/-- Where only one key is met, replacing it is replacing all. -/
theorem replaceKeys_of_meetsOneKey {keys : List Field} {names : List String}
    (one : MeetsOneKey keys names) {key : Field} (hkey : key ∈ keys) (here : key.name ∈ names) :
    replaceKeys identifier m concrete keys names =
      replaceKeys identifier m concrete [key] names := by
  refine List.map_congr_left ?_
  intro name hname
  rw [replica_singleton]
  split
  next same =>
    rw [same]
    exact replica_of_mem hkey
  next other =>
    unfold replica
    cases found : keys.find? (·.name == name) with
    | none => rfl
    | some key' =>
      have same : key'.name = name := by simpa using List.find?_some found
      have met : key'.name ∈ names := by rwa [same]
      have equal := one key hkey key' (List.mem_of_find?_eq_some found) here met
      exact absurd (same.symm.trans equal.symm) other

theorem mem_replaceKeys_singleton {key : Field} {names : List String} {name : String}
    (h : name ∈ replaceKeys identifier m concrete [key] names) :
    name = identifier (widenedName m concrete key) ∨ name ∈ names := by
  obtain ⟨original, horiginal, rfl⟩ := List.mem_map.1 h
  rw [replica_singleton]
  split
  next => exact Or.inl rfl
  next => exact Or.inr horiginal

theorem PlainUniques.listed (plain : PlainUniques m) {unique : Attribute}
    (hunique : unique ∈ m.attributesNamed "@@unique") {names : List String}
    (listed : (unique.arg? "fields").map Expression.listedNames = some names) {name : String}
    (hname : name ∈ names) : ¬ Identifier.start.toList <+: name.toList := by
  obtain ⟨value, found, rfl⟩ := Option.map_eq_some_iff.1 listed
  obtain ⟨arg, harg, rfl⟩ := Option.map_eq_some_iff.1 found
  exact plain unique hunique arg (List.mem_of_find?_eq_some harg) name hname

/-- **A constraint of a logical block is on one generated field at most.** -/
theorem generated_unique_of_uniques {memory : Memory} {start block : Target.ModelBlock}
    (logical : j.mode = .logical) (own : j.ownBlock m = .ok start)
    (h : (j.compileModel m).answer memory.shorten = .ok block) (plain : PlainUniques m)
    {list : List String} (hlist : list ∈ block.uniques) :
    ∃ only, ∀ name ∈ list, Identifier.start.toList <+: name.toList → name = only := by
  rcases (mem_uniques_logical logical own h).1 hlist with ofModel | added
  · refine ⟨"", ?_⟩
    intro name hname generated
    obtain ⟨a, ha, arg, harg, listed⟩ := exists_listed_of_uniques own ofModel hname
    exact absurd generated (plain a ha arg harg name listed)
  · obtain ⟨entry, _, unique, hunique, names, listed, _, rfl⟩ := added
    refine ⟨memory.identifier (widenedName m entry.1 entry.2), ?_⟩
    intro name hname generated
    rcases mem_replaceKeys_singleton hname with copy | kept
    · exact copy
    · exact absurd generated (plain.listed hunique listed kept)

theorem mem_copyings {f key : Field} (hf : f ∈ m.fields) (hc : concrete ∈ j.widenedTo m f)
    (hkey : key ∈ j.copiedKeys m f) : (concrete, key) ∈ j.copyings m := by
  have step : (f, concrete) ∈ j.widenings m :=
    List.mem_flatMap.2 ⟨f, hf, List.mem_map.2 ⟨concrete, hc, rfl⟩⟩
  exact List.mem_flatMap.2 ⟨(f, concrete), step, List.mem_map.2 ⟨key, hkey, rfl⟩⟩

section Build

variable {memory memory' : Memory} {out : Target.Schema} (logical : j.mode = .logical)
  (built : j.build memory = (.ok out, memory')) (hm : m ∈ j.concreteModels)
include logical built hm

/-- The copies of two keys for one descendant have one name only if the keys have. -/
theorem name_eq_of_identifier_eq {f key key' : Field} (hf : f ∈ m.fields)
    (hc : concrete ∈ j.widenedTo m f) (hkey : key ∈ j.copiedKeys m f)
    (hkey' : key' ∈ j.copiedKeys m f)
    (same : memory'.identifier (widenedName m concrete key) =
      memory'.identifier (widenedName m concrete key')) : key.name = key'.name := by
  have knows : ∀ x ∈ j.copiedKeys m f, memory'.Knows (widenedName m concrete x) := by
    intro x hx
    refine knows_widenedNames logical built hm _ (List.mem_flatMap.2 ⟨f, hf, ?_⟩)
    exact mem_namesFor.2 ⟨concrete, hc, x, List.mem_cons_of_mem _ hx, rfl⟩
  exact widenedName_inj_left.1 (identifier_inj (knows key hkey) (knows key' hkey') same)

end Build

/-- **When a constraint has a copy with all keys replaced.**  Let a relation that owns keys be
    widened for a descendant, and let a `@@unique` list some of these keys.  The block has a copy of
    the constraint for each listed key, with that key replaced.  If only one is listed this is the
    constraint with all keys replaced; if more are, no constraint of the block is that, unless the
    model names fields like generated ones. -/
theorem copied_uniques {d : Document} {j : Job} {memory memory' : Memory} {out : Target.Schema}
    (resolved : Schema.ofDocument d = .ok j.schema) (logical : j.mode = .logical)
    (built : j.build memory = (.ok out, memory')) {m : Model} (hm : m ∈ j.concreteModels)
    {f : Field} (hf : f ∈ m.fields) {relation : Attribute}
    (carried : f.attribute? "@relation" = some relation)
    (owning : (relation.arg? "fields").isSome = true) {keys : List Field}
    (tied : (j.schema.keyPairs m f).map (·.1) = keys) {concrete : Model}
    (hc : concrete ∈ j.widenedTo m f) {unique : Attribute}
    (hunique : unique ∈ m.attributesNamed "@@unique") {names : List String}
    (listed : (unique.arg? "fields").map Expression.listedNames = some names)
    (meets : ∃ key ∈ keys, key.name ∈ names) :
    ∃ block, out.findModel? m.name = some block ∧
      (∀ key ∈ keys, key.name ∈ names →
        replaceKeys memory'.identifier m concrete [key] names ∈ block.uniques) ∧
      (MeetsOneKey keys names →
        replaceKeys memory'.identifier m concrete keys names ∈ block.uniques) ∧
      (PlainUniques m → replaceKeys memory'.identifier m concrete keys names ∈ block.uniques →
        MeetsOneKey keys names) := by
  obtain ⟨start, block, own, found, ok⟩ := exists_own_and_block resolved built hm
  have copied : j.copiedKeys m f = keys := (copiedKeys_of_owning carried owning).trans tied
  have oneByOne : ∀ key ∈ keys, key.name ∈ names →
      replaceKeys memory'.identifier m concrete [key] names ∈ block.uniques := by
    intro key hkey here
    refine (mem_uniques_logical logical own ok).2 (Or.inr ⟨(concrete, key), ?_, ?_⟩)
    · exact mem_copyings hf hc (copied ▸ hkey)
    · exact ⟨unique, hunique, names, listed, here, rfl⟩
  refine ⟨block, found, oneByOne, ?_, ?_⟩
  · intro one
    obtain ⟨key, hkey, here⟩ := meets
    rw [replaceKeys_of_meetsOneKey one hkey here]
    exact oneByOne key hkey here
  · intro plain replaced key hkey key' hkey' here here'
    obtain ⟨only, unequalled⟩ := generated_unique_of_uniques logical own ok plain replaced
    -- both copies stand in the list, and both are generated
    have copies : ∀ x ∈ keys, x.name ∈ names →
        memory'.identifier (widenedName m concrete x) = only := by
      intro x hx met
      have stands : replica memory'.identifier m concrete keys x.name ∈
          replaceKeys memory'.identifier m concrete keys names := List.mem_map_of_mem met
      rw [replica_of_mem hx] at stands
      refine unequalled _ stands ?_
      rw [Memory.identifier_eq]
      exact start_isPrefix _
    refine name_eq_of_identifier_eq logical built hm hf hc (copied ▸ hkey) (copied ▸ hkey') ?_
    rw [copies key hkey here, copies key' hkey' here']

/-- An array of fields, passed by position. -/
def fieldsArg (names : List String) : AttributeArg :=
  { name := none, value := .array (names.map .ref) }

/-- Videos are assets, known by tenant and number; a cover is unique in both, and tied to an asset
    by the keys `keys`. -/
def covers (keys : List String) : Document where
  declarations := [
    .model {
      name := "Asset"
      isDelegate := true
      fields := [
        { name := "tenant", type := { scalar := some "Int" } },
        { name := "number", type := { scalar := some "Int" } }]
      attributes := [{ name := "@@id", args := [fieldsArg ["tenant", "number"]] }] },
    .model { name := "Video", superTypes := ["Asset"] },
    .model {
      name := "Cover"
      fields := [
        { name := "id", type := { scalar := some "Int" }, attributes := [{ name := "@id" }] },
        { name := "tenant", type := { scalar := some "Int" } },
        { name := "number", type := { scalar := some "Int" } },
        assetRelation "asset" keys keys]
      attributes := [{ name := "@@unique", args := [fieldsArg ["tenant", "number"]] }] }]

/-- Where a cover is tied to its asset by the number alone, the constraint has a copy with the
    number replaced. -/
theorem cover_number_replaced :
    ∃ (j : Job) (memory' : Memory) (out : Target.Schema),
      Schema.ofDocument (covers ["number"]) = .ok j.schema ∧ j.mode = .logical ∧
      j.build (Memory.ofLength Identifier.standardLength) = (.ok out, memory') ∧
      ∃ cover ∈ j.concreteModels, ∃ f ∈ cover.fields, ∃ video ∈ j.widenedTo cover f,
        (∃ relation, f.attribute? "@relation" = some relation ∧
          (relation.arg? "fields").isSome = true) ∧
        (j.schema.keyPairs cover f).map (·.1.name) = ["number"] ∧
        (∃ unique ∈ cover.attributesNamed "@@unique",
          (unique.arg? "fields").map Expression.listedNames = some ["tenant", "number"]) ∧
        PlainUniques cover ∧
        MeetsOneKey ((j.schema.keyPairs cover f).map (·.1)) ["tenant", "number"] ∧
        ∃ block, out.findModel? cover.name = some block ∧
          replaceKeys memory'.identifier cover video ((j.schema.keyPairs cover f).map (·.1))
            ["tenant", "number"] ∈ block.uniques ∧
          block.uniques =
            [["tenant", "number"], ["tenant", "delegate_aux_Cover_number_Video"]] := by
  have builds : (covers ["number"]).buildsTo .logical (fun j out =>
      j.concreteModels.any fun cover => cover.fields.any fun f =>
        (f.attribute? "@relation").any (fun relation => (relation.arg? "fields").isSome) &&
        (j.schema.keyPairs cover f).map (·.1.name) == ["number"] &&
        (cover.attributesNamed "@@unique").any (fun unique =>
          (unique.arg? "fields").map Expression.listedNames == some ["tenant", "number"]) &&
        decide (PlainUniques cover) &&
        (out.findModel? cover.name).all (fun block => block.uniques ==
          [["tenant", "number"], ["tenant", "delegate_aux_Cover_number_Video"]]) &&
        (j.widenedTo cover f).any fun video => video.name == "Video") = true := by
    decide +kernel
  obtain ⟨j, out, memory', resolved, logical, built, test⟩ := Document.exists_build builds
  simp only [List.any_eq_true, Bool.and_eq_true, beq_iff_eq, Option.any_eq_true,
    Option.all_eq_true, decide_eq_true_eq] at test
  obtain ⟨cover, hcover, f, hf, ⟨⟨⟨⟨⟨relation, carried, owning⟩, keys⟩, unique, hunique, listed⟩,
    plain⟩, uniques⟩, video, hvideo, _⟩ := test
  have names : ∀ key ∈ (j.schema.keyPairs cover f).map (·.1), key.name = "number" := by
    intro key hkey
    have member := List.mem_map_of_mem (f := Field.name) hkey
    rw [List.map_map] at member
    exact List.mem_singleton.1 (keys ▸ member)
  have one : MeetsOneKey ((j.schema.keyPairs cover f).map (·.1)) ["tenant", "number"] := by
    intro key hkey key' hkey' _ _
    rw [names key hkey, names key' hkey']
  have meets : ∃ key ∈ (j.schema.keyPairs cover f).map (·.1), key.name ∈ ["tenant", "number"] := by
    cases pairs : j.schema.keyPairs cover f with
    | nil =>
      rw [pairs] at keys
      cases keys
    | cons pair rest =>
      rw [pairs] at names
      refine ⟨pair.1, List.mem_cons_self, ?_⟩
      rw [names pair.1 List.mem_cons_self]
      decide
  obtain ⟨block, found, _, replaced, _⟩ := copied_uniques resolved logical built hcover hf carried
    owning rfl hvideo hunique listed meets
  exact ⟨j, memory', out, resolved, logical, built, cover, hcover, f, hf, video, hvideo,
    ⟨relation, carried, owning⟩, keys, ⟨unique, hunique, listed⟩, plain, one, block, found,
    replaced one, uniques block found⟩

/-- **A constraint on two keys of a relation is not copied as a whole.**  Where a cover is tied to
    its asset by tenant and number, each copy of the constraint has one of them replaced. -/
theorem cover_constraint_split :
    ∃ (j : Job) (memory' : Memory) (out : Target.Schema),
      Schema.ofDocument (covers ["tenant", "number"]) = .ok j.schema ∧ j.mode = .logical ∧
      j.build (Memory.ofLength Identifier.standardLength) = (.ok out, memory') ∧
      ∃ cover ∈ j.concreteModels, ∃ f ∈ cover.fields,
        (j.schema.keyPairs cover f).map (·.1.name) = ["tenant", "number"] ∧
        (j.widenedTo cover f).map (·.name) = ["Video"] ∧
        ∃ block, out.findModel? cover.name = some block ∧
          block.uniques = [["tenant", "number"], ["delegate_aux_Cover_tenant_Video", "number"],
            ["tenant", "delegate_aux_Cover_number_Video"]] ∧
          ["delegate_aux_Cover_tenant_Video", "delegate_aux_Cover_number_Video"] ∉
            block.uniques := by
  have builds : (covers ["tenant", "number"]).buildsTo .logical (fun j out =>
      j.concreteModels.any fun cover => cover.fields.any fun f =>
        (j.schema.keyPairs cover f).map (·.1.name) == ["tenant", "number"] &&
        (j.widenedTo cover f).map (·.name) == ["Video"] &&
        (out.findModel? cover.name).any fun block => block.uniques ==
          [["tenant", "number"], ["delegate_aux_Cover_tenant_Video", "number"],
            ["tenant", "delegate_aux_Cover_number_Video"]]) = true := by
    decide +kernel
  obtain ⟨j, out, memory', resolved, logical, built, test⟩ := Document.exists_build builds
  simp only [List.any_eq_true, Bool.and_eq_true, beq_iff_eq, Option.any_eq_true] at test
  obtain ⟨cover, hcover, f, hf, ⟨keys, videos⟩, block, found, uniques⟩ := test
  refine ⟨j, memory', out, resolved, logical, built, cover, hcover, f, hf, keys, videos, block,
    found, uniques, ?_⟩
  rw [uniques]
  decide

end Job

end DelegateSchema
