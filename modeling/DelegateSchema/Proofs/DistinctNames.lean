/-
  DelegateSchema.Proofs.DistinctNames — when the fields of a logical block have distinct names.

  Widening makes up a name for every relation that it adds and for every key that it copies, from
  three parts: the model, the relation or key, and the descendant.  Where no name of the document
  has an underscore, different parts give different names, shortening keeps them apart, and none
  of them is a name of the document.  So a block has two fields of one name only where widening
  makes up a name twice from the same parts, and this happens: every relation copies its keys for
  itself, also the keys that it shares with another relation.

  Main results:
    * `asked_widen` — widening asks for the names that it adds fields for, and for no others,
    * `fieldNames_logical` — the field names of a logical block,
    * `widenedName_inj` — the parts can be read off a made-up name,
    * `logical_names_distinct_iff` — the names of a block are distinct exactly when no key is
      copied twice for one descendant,
    * `playlist_repeats_key` — a block whose names are not.
-/
import DelegateSchema.Proofs.Truncation
import DelegateSchema.Proofs.Usages
import DelegateSchema.Proofs.Widening
import Mathlib.Data.List.Nodup
import Mathlib.Data.List.Pairwise

namespace DelegateSchema

open Identifier (Memory ofShort)

namespace Job

variable {j : Job} {m : Model} {shortOf : String → String}

/-! ## §1. The names that widening asks for -/

/-- The names that widening makes up for a field: for each descendant that of the relation, then
    those of its copied keys. -/
def namesFor (j : Job) (m : Model) (f : Field) : List String :=
  (j.widenedTo m f).flatMap fun concrete =>
    (f :: j.copiedKeys m f).map (widenedName m concrete)

/-- The names that widening makes up for a model, in the order of the fields that it adds. -/
def widenedNames (j : Job) (m : Model) : List String :=
  m.fields.flatMap (j.namesFor m)

theorem asked_copyKey {concrete : Model} {key : Field} {b : Target.ModelBlock}
    {result : String × Target.ModelBlock}
    (h : (j.copyKey m concrete key b).answer shortOf = .ok result) :
    (j.copyKey m concrete key b).asked shortOf = [widenedName m concrete key] := by
  unfold copyKey at h ⊢
  rw [Compile.answer_bind] at h
  obtain ⟨field, compiled, _⟩ := bind_ok_iff.1 h
  rw [Compile.asked_bind_of_ok compiled,
    Compile.asked_bind_of_ok (Compile.answer_identifier shortOf _)]
  rfl

theorem asked_copyKeys {concrete : Model} {keys : List Field} {b : Target.ModelBlock}
    {result : List String × Target.ModelBlock}
    (h : (j.copyKeys m concrete keys b).answer shortOf = .ok result) :
    (j.copyKeys m concrete keys b).asked shortOf = keys.map (widenedName m concrete) := by
  induction keys generalizing b result with
  | nil => rfl
  | cons key keys ih =>
    unfold copyKeys at h ⊢
    rw [Compile.answer_bind] at h
    obtain ⟨⟨name, block⟩, first, h⟩ := bind_ok_iff.1 h
    rw [Compile.answer_bind] at h
    obtain ⟨⟨names, block'⟩, rest, _⟩ := bind_ok_iff.1 h
    rw [Compile.asked_bind_of_ok first, Compile.asked_bind_of_ok rest, asked_copyKey first, ih rest]
    simp

theorem asked_widenedRelation {f : Field} {concrete : Model} {name : String}
    {b : Target.ModelBlock} {result : Target.Attribute × Target.ModelBlock}
    (h : (j.widenedRelation m f concrete name b).answer shortOf = .ok result) :
    (j.widenedRelation m f concrete name b).asked shortOf =
      (j.copiedKeys m f).map (widenedName m concrete) := by
  unfold widenedRelation at h ⊢
  unfold copiedKeys
  cases carried : f.attribute? "@relation" with
  | none => rfl
  | some relation =>
    rw [carried] at h
    dsimp only at h ⊢
    split at h
    next keyless =>
      rw [Compile.answer_bind] at h
      obtain ⟨_, taken, _⟩ := bind_ok_iff.1 h
      rw [if_pos keyless, Compile.asked_bind_of_ok taken]
      simp [Option.isNone_iff_eq_none.1 keyless]
    next owning =>
      rw [Compile.answer_bind] at h
      obtain ⟨⟨_, _⟩, copied, _⟩ := bind_ok_iff.1 h
      have owns : (relation.arg? "fields").isSome = true := by
        simpa [Option.isSome_iff_ne_none] using owning
      rw [if_neg owning, if_pos owns, Compile.asked_bind_of_ok copied, asked_copyKeys copied]
      simp

theorem asked_widenFor {f : Field} {concrete : Model} {b b' : Target.ModelBlock}
    (h : (j.widenFor m f b concrete).answer shortOf = .ok b') :
    (j.widenFor m f b concrete).asked shortOf =
      (f :: j.copiedKeys m f).map (widenedName m concrete) := by
  unfold widenFor at h ⊢
  have name := Compile.answer_identifier shortOf (m.name ++ "_" ++ f.name ++ "_" ++ concrete.name)
  rw [Compile.answer_bind, name] at h
  obtain ⟨_, same, h⟩ := bind_ok_iff.1 h
  cases same
  rw [Compile.answer_bind] at h
  obtain ⟨⟨_, _⟩, widened, _⟩ := bind_ok_iff.1 h
  rw [Compile.asked_bind_of_ok name, Compile.asked_bind_of_ok widened,
    asked_widenedRelation widened]
  simp [widenedName]

/-- **Widening asks for the names that it adds fields for, and for no others.** -/
theorem asked_widen {b b' : Target.ModelBlock} (h : (j.widen m b).answer shortOf = .ok b') :
    (j.widen m b).asked shortOf = j.widenedNames m := by
  unfold widen at h ⊢
  refine Compile.asked_foldlM_of_ok h ?_
  intro b f b' ok
  exact Compile.asked_foldlM_of_ok ok fun _ _ _ ok => asked_widenFor ok

/-- The memory that a build leaves knows the names asked for by the blocks of its models. -/
theorem knows_of_compileModel {memory memory' : Memory} {out : Target.Schema}
    (built : j.build memory = (.ok out, memory')) (hm : m ∈ j.concreteModels) {name : String}
    (asked : name ∈ (j.compileModel m).asked memory'.shorten) : memory'.Knows name := by
  refine knows_of_asked built ?_
  obtain ⟨known, concrete⟩ := mem_concreteModels.1 hm
  obtain ⟨decl, hdecl, isModel⟩ := List.mem_filterMap.1 known
  rw [decl.eq_model isModel] at hdecl
  have compiled := build_eq_ok built
  unfold compile at compiled ⊢
  rw [Compile.answer_bind] at compiled
  obtain ⟨blocks, all, _⟩ := bind_ok_iff.1 compiled
  rw [Compile.asked_bind_of_ok all, Compile.asked_mapM_of_ok all]
  refine List.mem_append_left _ (List.mem_flatMap.2 ⟨_, hdecl, ?_⟩)
  -- the model is compiled in the course of the build
  rw [Compile.answer_mapM] at all
  obtain ⟨block, _, ok⟩ := forall₂_exists_right (mapM_ok_iff.1 all) hdecl
  simp only [compileDeclaration, concrete, Bool.false_eq_true, if_false] at ok ⊢
  rw [Compile.answer_bind] at ok
  obtain ⟨block, ok, _⟩ := bind_ok_iff.1 ok
  rw [Compile.asked_bind_of_ok ok]
  exact List.mem_append_left _ asked

/-- The memory that a build leaves knows the names made up for its models. -/
theorem knows_widenedNames {memory memory' : Memory} {out : Target.Schema}
    (logical : j.mode = .logical) (built : j.build memory = (.ok out, memory'))
    (hm : m ∈ j.concreteModels) : ∀ name ∈ j.widenedNames m, memory'.Knows name := by
  intro name hname
  refine knows_of_compileModel built hm ?_
  obtain ⟨block, _, ok⟩ := forall₂_exists_right (forall₂_modelBlocks (build_eq_ok built)) hm
  -- the own block of the model comes before widening
  obtain ⟨start, own, rest⟩ := compileModel_eq_ok ok
  obtain ⟨widened, widens, _⟩ := completeBlock_logical logical rest
  unfold compileModel completeBlock
  rw [Compile.asked_bind_of_ok (x := Compile.ofExcept (j.ownBlock m)) own, logical]
  dsimp only
  rw [Compile.asked_bind_of_ok widens, asked_widen widens]
  simp [hname]

/-! ## §2. The field names of a logical block -/

theorem fieldNames_logical {memory : Memory} {block : Target.ModelBlock}
    (logical : j.mode = .logical) (h : (j.compileModel m).answer memory.shorten = .ok block) :
    block.fieldNames = m.fieldNames ++ (j.widenedNames m).map memory.identifier := by
  obtain ⟨start, own, rest⟩ := compileModel_eq_ok h
  obtain ⟨widened, ok, rfl⟩ := completeBlock_logical logical rest
  rw [answer_widen] at ok
  rw [fieldNames_nameRelations, fieldNames_widenings ok, fieldNames_ownBlock own,
    filter_emits_logical logical, flatMap_widenings (fun f concrete =>
      (f :: j.copiedKeys m f).map fun x =>
        ofShort (memory.shorten (widenedName m concrete x)))]
  unfold widenedNames namesFor
  simp only [List.map_flatMap, List.map_map, Function.comp_def, Memory.identifier_eq]
  rfl

/-! ## §3. Made-up names -/

theorem mem_fields_of_referencedFields {f : Field} {listed : Option Expression}
    (h : f ∈ m.referencedFields listed) : f ∈ m.fields := by
  unfold Model.referencedFields at h
  split at h
  next items =>
    obtain ⟨item, _, found⟩ := List.mem_filterMap.1 h
    split at found
    next => exact List.mem_of_find?_eq_some found
    next => cases found
  next => cases h

theorem mem_fields_of_keyPairs {s : Schema} {f : Field} {pair : Field × Field}
    (h : pair ∈ s.keyPairs m f) : pair.1 ∈ m.fields := by
  unfold Schema.keyPairs at h
  split at h
  next => exact mem_fields_of_referencedFields (List.of_mem_zip h).1
  next => cases h

/-- The keys that are copied are fields of the model. -/
theorem mem_fields_of_copiedKeys {f key : Field} (h : key ∈ j.copiedKeys m f) :
    key ∈ m.fields := by
  unfold copiedKeys at h
  split at h
  next =>
    split at h
    next =>
      obtain ⟨pair, hpair, rfl⟩ := List.mem_map.1 h
      exact mem_fields_of_keyPairs hpair
    next => cases h
  next => cases h

theorem toList_widenedName (m concrete : Model) (f : Field) :
    (widenedName m concrete f).toList =
      m.name.toList ++ '_' :: (f.name.toList ++ '_' :: concrete.name.toList) := by
  simp [widenedName, String.toList_append]

/-- Names made up for one descendant tell the fields apart. -/
theorem widenedName_inj_left {concrete : Model} {f g : Field} :
    widenedName m concrete f = widenedName m concrete g ↔ f.name = g.name := by
  rw [← String.toList_inj, toList_widenedName, toList_widenedName, List.append_cancel_left_eq,
    List.cons.injEq, List.append_cancel_right_eq, String.toList_inj]
  simp

/-- **Made-up names tell their parts apart**, if the parts have no underscores. -/
theorem widenedName_inj {concrete concrete' : Model} {f g : Field} (plain : '_' ∉ f.name.toList)
    (plain' : '_' ∉ concrete.name.toList) :
    widenedName m concrete f = widenedName m concrete' g ↔
      f.name = g.name ∧ concrete.name = concrete'.name := by
  rw [← String.toList_inj, toList_widenedName, toList_widenedName, List.append_cancel_left_eq,
    List.cons.injEq, List.append_cons_inj_of_notMem plain plain', String.toList_inj,
    String.toList_inj]
  simp

/-! ## §4. Names that are made up twice -/

/-- No name is made up twice for a model. -/
structure CopiesApart (j : Job) (m : Model) : Prop where
  /-- A relation that is widened lists no key twice, and does not list itself. -/
  within : ∀ f ∈ m.fields, j.widenedTo m f ≠ [] → ((f :: j.copiedKeys m f).map (·.name)).Nodup
  /-- Two relations that are widened for one descendant have no key in common, and neither is a
      key of the other. -/
  between : ∀ f ∈ m.fields, ∀ g ∈ m.fields, f.name ≠ g.name →
    ∀ concrete, concrete ∈ j.widenedTo m f → concrete ∈ j.widenedTo m g →
      ∀ x ∈ f :: j.copiedKeys m f, ∀ y ∈ g :: j.copiedKeys m g, x.name ≠ y.name

theorem mem_namesFor {f : Field} {name : String} :
    name ∈ j.namesFor m f ↔ ∃ concrete ∈ j.widenedTo m f, ∃ x ∈ f :: j.copiedKeys m f,
      widenedName m concrete x = name := by
  unfold namesFor
  simp only [List.mem_flatMap, List.mem_map]

/-- Where names are distinct, what holds of any two elements in either order holds of any two of
    different names. -/
theorem pairwise_iff_of_distinct {α : Type} {nameOf : α → String} {R : α → α → Prop}
    (symm : ∀ x y, R x y → R y x) {xs : List α} (distinct : (xs.map nameOf).Nodup) :
    xs.Pairwise R ↔ ∀ x ∈ xs, ∀ y ∈ xs, nameOf x ≠ nameOf y → R x y := by
  have : Std.Symm R := ⟨symm⟩
  constructor
  · intro pairs x hx y hy different
    exact pairs.forall hx hy fun same => different (congrArg nameOf same)
  · intro all
    refine distinct.of_map.pairwise_of_forall_ne ?_
    intro x hx y hy different
    exact all x hx y hy fun same => different (List.inj_on_of_nodup_map distinct hx hy same)

section Plain

variable (modelNames : j.schema.modelNames.Nodup)
  (plainModels : ∀ c ∈ j.schema.models, '_' ∉ c.name.toList)
  (plainFields : ∀ f ∈ m.fields, '_' ∉ f.name.toList)
include modelNames plainModels plainFields

/-- Equal names were made up for one descendant and one relation or key. -/
theorem eq_of_widenedName_eq {f g : Field} (hf : f ∈ m.fields) {concrete concrete' : Model}
    (hc : concrete ∈ j.widenedTo m f) (hc' : concrete' ∈ j.widenedTo m g) {x y : Field}
    (hx : x ∈ f :: j.copiedKeys m f) (same : widenedName m concrete x = widenedName m concrete' y) :
    x.name = y.name ∧ concrete = concrete' := by
  have known : concrete ∈ j.schema.models := (widenedTo_sublist f).subset hc
  have known' : concrete' ∈ j.schema.models := (widenedTo_sublist g).subset hc'
  have plain : '_' ∉ x.name.toList := by
    rcases List.mem_cons.1 hx with rfl | key
    · exact plainFields x hf
    · exact plainFields x (mem_fields_of_copiedKeys key)
  obtain ⟨sameField, sameModel⟩ := (widenedName_inj plain (plainModels concrete known)).1 same
  exact ⟨sameField, List.inj_on_of_nodup_map modelNames known known' sameModel⟩

theorem disjoint_namesFor_iff {f g : Field} (hf : f ∈ m.fields) :
    List.Disjoint (j.namesFor m f) (j.namesFor m g) ↔
      ∀ concrete, concrete ∈ j.widenedTo m f → concrete ∈ j.widenedTo m g →
        ∀ x ∈ f :: j.copiedKeys m f, ∀ y ∈ g :: j.copiedKeys m g, x.name ≠ y.name := by
  constructor
  · intro disjoint concrete hc hc' x hx y hy same
    refine disjoint (mem_namesFor.2 ⟨concrete, hc, x, hx, rfl⟩)
      (mem_namesFor.2 ⟨concrete, hc', y, hy, ?_⟩)
    exact widenedName_inj_left.2 same.symm
  · intro apart name hname hname'
    obtain ⟨concrete, hc, x, hx, isName⟩ := mem_namesFor.1 hname
    obtain ⟨concrete', hc', y, hy, isName'⟩ := mem_namesFor.1 hname'
    obtain ⟨same, rfl⟩ := eq_of_widenedName_eq modelNames plainModels plainFields hf hc hc' hx
      (isName.trans isName'.symm)
    exact apart concrete hc hc' x hx y hy same

theorem nodup_namesFor_iff {f : Field} (hf : f ∈ m.fields) :
    (j.namesFor m f).Nodup ↔
      (j.widenedTo m f ≠ [] → ((f :: j.copiedKeys m f).map (·.name)).Nodup) := by
  have each : ∀ concrete, ((f :: j.copiedKeys m f).map (widenedName m concrete)).Nodup ↔
      ((f :: j.copiedKeys m f).map (·.name)).Nodup := by
    intro concrete
    simp only [List.Nodup, List.pairwise_map, ne_eq, widenedName_inj_left]
  unfold namesFor
  rw [List.nodup_flatMap]
  constructor
  · intro ⟨names, _⟩ widened
    obtain ⟨concrete, hc⟩ := List.exists_mem_of_ne_nil _ widened
    exact (each concrete).1 (names concrete hc)
  · intro names
    refine ⟨fun concrete hc => (each concrete).2 (names (List.ne_nil_of_mem hc)), ?_⟩
    -- a field is widened once for each descendant
    have once : (j.widenedTo m f).Nodup := modelNames.of_map.sublist (widenedTo_sublist f)
    refine once.pairwise_of_forall_ne ?_
    intro concrete hc concrete' hc' different name hname hname'
    obtain ⟨x, hx, isName⟩ := List.mem_map.1 hname
    obtain ⟨y, _, isName'⟩ := List.mem_map.1 hname'
    exact different (eq_of_widenedName_eq modelNames plainModels plainFields hf hc hc' hx
      (isName.trans isName'.symm)).2

/-- **Made-up names are distinct exactly when no key is copied twice for one descendant.** -/
theorem nodup_widenedNames_iff (distinct : m.fieldNames.Nodup) :
    (j.widenedNames m).Nodup ↔ j.CopiesApart m := by
  have symm : ∀ f g, List.Disjoint (j.namesFor m f) (j.namesFor m g) →
      List.Disjoint (j.namesFor m g) (j.namesFor m f) :=
    fun _ _ disjoint _ hg hf => disjoint hf hg
  have each : ∀ f ∈ m.fields, _ :=
    fun f hf => nodup_namesFor_iff modelNames plainModels plainFields hf
  have pair : ∀ f ∈ m.fields, ∀ g, _ :=
    fun f hf g => disjoint_namesFor_iff (g := g) modelNames plainModels plainFields hf
  unfold widenedNames
  rw [List.nodup_flatMap, pairwise_iff_of_distinct symm distinct]
  constructor
  · intro ⟨names, apart⟩
    refine ⟨fun f hf => (each f hf).1 (names f hf), ?_⟩
    intro f hf g hg different
    exact (pair f hf g).1 (apart f hf g hg different)
  · intro ⟨within, between⟩
    refine ⟨fun f hf => (each f hf).2 (within f hf), ?_⟩
    intro f hf g hg different
    exact (pair f hf g).2 (between f hf g hg different)

end Plain

/-! ## §5. Whole builds -/

/-- A generated identifier has an underscore. -/
theorem underscore_mem_identifier (memory : Memory) (name : String) :
    '_' ∈ (memory.identifier name).toList := by
  rw [Memory.identifier_eq, ofShort_eq, String.toList_append]
  exact List.mem_append_left _ (by decide)

/-- **When the names of a logical block are distinct.**  In a document without underscores in the
    names of models and fields, take a model whose own names are distinct.  The names of its block
    are distinct exactly when widening makes up no name twice, and this is when no key is copied
    twice for one descendant: not for one relation, and not for two. -/
theorem logical_names_distinct_iff {d : Document} {j : Job} {memory memory' : Memory}
    {out : Target.Schema} (resolved : Schema.ofDocument d = .ok j.schema)
    (plain : d.flattened = false)
    (modelsPlain : ∀ u ∈ modelsOf d.declarations, '_' ∉ u.name.toList)
    (fieldsPlain : ∀ u ∈ modelsOf d.declarations, ∀ f ∈ u.fields, '_' ∉ f.name.toList)
    (logical : j.mode = .logical) (built : j.build memory = (.ok out, memory'))
    {m : Model} (hm : m ∈ j.concreteModels) (distinct : m.fieldNames.Nodup) :
    ∃ block, out.findModel? m.name = some block ∧
      block.fieldNames = m.fieldNames ++ (j.widenedNames m).map memory'.identifier ∧
      (block.fieldNames.Nodup ↔ j.CopiesApart m) := by
  have modelNames := Schema.modelNames_nodup_of_ofDocument resolved
  obtain ⟨known, concrete⟩ := mem_concreteModels.1 hm
  obtain ⟨block, found, ok⟩ := exists_block built modelNames known concrete
  have names := fieldNames_logical logical ok
  refine ⟨block, found, names, ?_⟩
  have plainModels : ∀ c ∈ j.schema.models, '_' ∉ c.name.toList := by
    intro c hc
    have declared : c.name ∈ j.schema.modelNames := List.mem_map.2 ⟨c, hc, rfl⟩
    rw [Schema.modelNames_eq_declared resolved plain] at declared
    obtain ⟨u, hu, same⟩ := List.mem_map.1 declared
    rw [← same]
    exact modelsPlain u hu
  have plainFields : ∀ f ∈ m.fields, '_' ∉ f.name.toList :=
    Schema.forall_fields_of_ofDocument (Q := fun f => '_' ∉ f.name.toList) resolved plain
      fieldsPlain (fun _ _ h _ => h) (fun _ _ h => h) known
  rw [← nodup_widenedNames_iff modelNames plainModels plainFields distinct, names,
    List.nodup_append]
  -- shortening keeps the made-up names apart, and none of them is a name of the document
  have injective : ∀ x ∈ j.widenedNames m, ∀ y ∈ j.widenedNames m,
      memory'.identifier x = memory'.identifier y → x = y := by
    intro x hx y hy same
    have knows := knows_widenedNames logical built hm
    rw [Memory.identifier_eq, Memory.identifier_eq] at same
    exact memory'.shorten_injOn (knows x hx) (knows y hy) (ofShort_injective same)
  constructor
  · intro ⟨_, generated, _⟩
    exact generated.of_map
  · intro once
    refine ⟨distinct, once.map_on injective, ?_⟩
    intro name own name' generated same
    obtain ⟨f, hf, rfl⟩ := List.mem_map.1 own
    obtain ⟨x, _, rfl⟩ := List.mem_map.1 generated
    refine plainFields f hf ?_
    rw [same]
    exact underscore_mem_identifier memory' x

/-- A relation that is tied to an asset by the keys `keys`. -/
def assetRelation (name : String) (keys references : List String) : Field where
  name := name
  type := { reference := some "Asset" }
  attributes := [
    { name := "@relation"
      args := [
        { name := some "fields", value := .array (keys.map .ref) },
        { name := some "references", value := .array (references.map .ref) }] }]

/-- Videos are assets of a tenant, and a playlist has two assets of its tenant; the second of them
    is tied by the keys `keys`. -/
def playlists (keys references : List String) : Document where
  declarations := [
    .model {
      name := "Asset"
      isDelegate := true
      fields := [
        { name := "id", type := { scalar := some "Int" }, attributes := [{ name := "@id" }] },
        { name := "tenant", type := { scalar := some "Int" } }] },
    .model { name := "Video", superTypes := ["Asset"] },
    .model {
      name := "Playlist"
      fields := [
        { name := "id", type := { scalar := some "Int" }, attributes := [{ name := "@id" }] },
        { name := "tenant", type := { scalar := some "Int" } },
        { name := "introId", type := { scalar := some "Int" } },
        { name := "outroId", type := { scalar := some "Int" } },
        assetRelation "intro" ["tenant", "introId"] ["tenant", "id"],
        assetRelation "outro" keys references] }]

/-- Where the second asset is tied by its number alone, no key is copied twice. -/
theorem playlist_copies_apart :
    ∃ (j : Job) (memory' : Memory) (out : Target.Schema),
      Schema.ofDocument (playlists ["outroId"] ["id"]) = .ok j.schema ∧ j.mode = .logical ∧
      j.build (Memory.ofLength Identifier.standardLength) = (.ok out, memory') ∧
      ∃ playlist ∈ j.concreteModels, playlist.name = "Playlist" ∧
        j.widenedNames playlist = ["Playlist_intro_Video", "Playlist_tenant_Video",
          "Playlist_introId_Video", "Playlist_outro_Video", "Playlist_outroId_Video"] ∧
        j.CopiesApart playlist ∧
        ∃ block, out.findModel? playlist.name = some block ∧ block.fieldNames.Nodup := by
  have plain : ∀ u ∈ modelsOf (playlists ["outroId"] ["id"]).declarations,
      '_' ∉ u.name.toList ∧ ∀ f ∈ u.fields, '_' ∉ f.name.toList := by
    decide
  have builds : (playlists ["outroId"] ["id"]).buildsTo .logical (fun j out =>
      j.concreteModels.any fun playlist => playlist.name == "Playlist" &&
        j.widenedNames playlist == ["Playlist_intro_Video", "Playlist_tenant_Video",
          "Playlist_introId_Video", "Playlist_outro_Video", "Playlist_outroId_Video"] &&
        decide playlist.fieldNames.Nodup &&
        (out.findModel? playlist.name).all fun block => decide block.fieldNames.Nodup) = true := by
    decide +kernel
  obtain ⟨j, out, memory', resolved, logical, built, test⟩ := Document.exists_build builds
  simp only [List.any_eq_true, Bool.and_eq_true, beq_iff_eq, decide_eq_true_eq,
    Option.all_eq_true] at test
  obtain ⟨playlist, hplaylist, ⟨⟨isPlaylist, names⟩, distinct⟩, nodup⟩ := test
  obtain ⟨block, found, _, iff⟩ := logical_names_distinct_iff resolved rfl
    (fun u hu => (plain u hu).1) (fun u hu => (plain u hu).2) logical built hplaylist distinct
  exact ⟨j, memory', out, resolved, logical, built, playlist, hplaylist, isPlaylist, names,
    iff.1 (nodup block found), block, found, nodup block found⟩

/-- **A logical block can have two fields of one name**: where both assets are tied by the tenant
    of the playlist, the tenant is copied for the videos twice. -/
theorem playlist_repeats_key :
    ∃ (j : Job) (memory' : Memory) (out : Target.Schema) (block : Target.ModelBlock),
      Schema.ofDocument (playlists ["tenant", "outroId"] ["tenant", "id"]) = .ok j.schema ∧
      (playlists ["tenant", "outroId"] ["tenant", "id"]).flattened = false ∧
      (∀ u ∈ modelsOf (playlists ["tenant", "outroId"] ["tenant", "id"]).declarations,
        '_' ∉ u.name.toList ∧ ∀ f ∈ u.fields, '_' ∉ f.name.toList) ∧
      (∀ m ∈ j.schema.models, m.fieldNames.Nodup) ∧ j.mode = .logical ∧
      j.build (Memory.ofLength Identifier.standardLength) = (.ok out, memory') ∧
      out.findModel? "Playlist" = some block ∧
      block.fieldNames.count "delegate_aux_Playlist_tenant_Video" = 2 ∧
      ¬ block.fieldNames.Nodup := by
  have plain : ∀ u ∈ modelsOf (playlists ["tenant", "outroId"] ["tenant", "id"]).declarations,
      '_' ∉ u.name.toList ∧ ∀ f ∈ u.fields, '_' ∉ f.name.toList := by
    decide
  have builds : (playlists ["tenant", "outroId"] ["tenant", "id"]).buildsTo .logical (fun j out =>
      (j.schema.models.all fun m => decide m.fieldNames.Nodup) &&
      (out.findModel? "Playlist").any fun block =>
        block.fieldNames.count "delegate_aux_Playlist_tenant_Video" == 2) = true := by
    decide +kernel
  obtain ⟨j, out, memory', resolved, logical, built, test⟩ := Document.exists_build builds
  simp only [Bool.and_eq_true, List.all_eq_true, decide_eq_true_eq, Option.any_eq_true,
    beq_iff_eq] at test
  obtain ⟨distinct, block, found, twice⟩ := test
  refine ⟨j, memory', out, block, resolved, rfl, plain, distinct, logical, built, found, twice, ?_⟩
  intro once
  have atMostOnce := List.nodup_iff_count_le_one.1 once "delegate_aux_Playlist_tenant_Video"
  omega

end Job

end DelegateSchema
