/-
  DelegateSchema.Proofs.InheritedAttributes — the ways along which attributes are inherited.

  A merged model has its own attributes, then those that its super types hand down, one super type
  after the other.  A field that arrives a second time is left out; an attribute is not.  So the
  list of a merged model has an attribute as often as there are ways up to the model that carries
  it, along which it is handed down.

  Main results:
    * `exists_arrivals` — the attributes of a merged model, each with the way that it came,
    * `nodup_attributes_iff` — no attribute is repeated exactly where there is one way to each,
    * `way_unique_of_single` — which is so where models have one super type at most,
    * `attributes_once_iff_one_way` — what a merged model inherits, and what it repeats,
    * `draftPage_repeats_index` — two super types that have an index from a third repeat it.
-/
import DelegateSchema.Proofs.Flattening
import Mathlib.Data.List.Nodup
import Mathlib.Data.List.Pairwise

namespace DelegateSchema

open Relation (TransGen)

/-! ## §1. Ways -/

/-- The model `name` of the document carries a usage that is resolved to `a`. -/
def Document.Carries (d : Document) (name : String) (a : Attribute) : Prop :=
  ∃ m ∈ modelsOf d.declarations, m.name = name ∧
    ∃ usage ∈ m.attributes, d.registry.resolve usage = .ok a

/-- The usages on all models of the document, as they are written. -/
def Document.modelUsages (d : Document) : List Attribute :=
  (modelsOf d.declarations).flatMap fun m => m.attributes.map Attribute.cleared

namespace Schema

/-- The super type at a position of the list of a model. -/
def superTypeAt (s : Schema) (m : Model) (i : Nat) : Option Model :=
  m.superTypes[i]?.bind s.model?

/-- The attribute `a` comes to a model along a way.  The way says at each model which super type to
    take next; all of them hand the attribute down, and the last one carries it. -/
def ComesAlong (s : Schema) (d : Document) (a : Attribute) : Model → List Nat → Prop
  | m, [] => d.Carries m.name a
  | m, i :: way =>
    ∃ base, s.superTypeAt m i = some base ∧ base.passesOn a = true ∧ s.ComesAlong d a base way

/-- The model `name` lists the model `base`, which is no delegate. -/
def ListsPlain (s : Schema) (name base : String) : Prop :=
  s.Lists name base ∧ ∃ b, s.model? base = some b ∧ b.isDelegate = false

end Schema

/-! ## §2. The models that carry an attribute -/

section Carried

variable {d : Document} {a : Attribute}

/-- Resolution fills the slots of a usage and leaves alone what is written. -/
theorem Registry.cleared_of_resolve {r : Registry} {usage : Attribute}
    (h : r.resolve usage = .ok a) : a.cleared = usage.cleared := by
  rcases Registry.resolve_eq_ok h with rfl | ⟨decl, _, rfl⟩
  · rfl
  · simp only [Attribute.cleared, Registry.map_cleared_bindArgs]

/-- **No attribute is carried by two models**, where all usages are written differently. -/
theorem Document.Carries.unique (different : d.modelUsages.Nodup) {name name' : String}
    (h : d.Carries name a) (h' : d.Carries name' a) : name = name' := by
  obtain ⟨m, hm, rfl, usage, husage, resolves⟩ := h
  obtain ⟨m', hm', rfl, usage', husage', resolves'⟩ := h'
  -- the usages would stand in the lists of two models, written alike
  by_contra other
  have : Std.Symm (Function.onFun List.Disjoint
      fun m : Model => m.attributes.map Attribute.cleared) := ⟨fun _ _ apart _ h h' => apart h' h⟩
  have apart := (List.nodup_flatMap.1 different).2.forall hm hm'
    (fun same => other (congrArg Model.name same))
  refine apart (List.mem_map.2 ⟨usage, husage, rfl⟩) (List.mem_map.2 ⟨usage', husage', ?_⟩)
  rw [← Registry.cleared_of_resolve resolves, ← Registry.cleared_of_resolve resolves']

variable {declared own : Model}

/-- The own attributes of a merged model are those that its declaration carries. -/
theorem mem_attributes_iff_carries (distinct : d.modelNames.Nodup)
    (hdeclared : declared ∈ modelsOf d.declarations)
    (resolves : d.registry.ResolvesModel declared own) :
    a ∈ own.attributes ↔ d.Carries declared.name a := by
  constructor
  · intro h
    obtain ⟨usage, husage, ok⟩ := forall₂_exists_left resolves.attributes h
    exact ⟨declared, hdeclared, rfl, usage, husage, ok⟩
  · intro ⟨m, hm, named, usage, husage, ok⟩
    cases List.inj_on_of_nodup_map distinct hm hdeclared named
    obtain ⟨a', ha', ok'⟩ := forall₂_exists_right resolves.attributes husage
    cases ok.symm.trans ok'
    exact ha'

theorem nodup_own_attributes (different : d.modelUsages.Nodup)
    (hdeclared : declared ∈ modelsOf d.declarations)
    (resolves : d.registry.ResolvesModel declared own) : own.attributes.Nodup := by
  have written : own.attributes.map Attribute.cleared =
      declared.attributes.map Attribute.cleared := by
    have attributes := resolves.attributes
    generalize declared.attributes = usages, own.attributes = resolved at attributes ⊢
    induction attributes with
    | nil => rfl
    | cons first _ ih =>
      rw [List.map_cons, List.map_cons, Registry.cleared_of_resolve first, ih]
  have once := (List.nodup_flatMap.1 different).1 declared hdeclared
  rw [← written] at once
  exact once.of_map

end Carried

/-! ## §3. Arrivals -/

/-- The attributes that super types hand down, each with the way that it came.  The way begins at
    the position of the super type, and goes on as it came to the super type. -/
def handedDown (arrivals : Model → List (List Nat × Attribute)) (bases : List Model) :
    List (List Nat × Attribute) :=
  bases.zipIdx.flatMap fun (base, i) =>
    ((arrivals base).filter fun (_, a) => base.passesOn a).map fun (way, a) => (i :: way, a)

section HandedDown

variable {arrivals : Model → List (List Nat × Attribute)} {bases : List Model} {a : Attribute}

theorem mem_handedDown {way : List Nat} :
    (way, a) ∈ handedDown arrivals bases ↔
      ∃ i rest base, way = i :: rest ∧ bases[i]? = some base ∧ base.passesOn a = true ∧
        (rest, a) ∈ arrivals base := by
  unfold handedDown
  constructor
  · intro h
    obtain ⟨⟨base, i⟩, position, h⟩ := List.mem_flatMap.1 h
    obtain ⟨⟨rest, a'⟩, came, same⟩ := List.mem_map.1 h
    cases same
    obtain ⟨came, passes⟩ := List.mem_filter.1 came
    exact ⟨i, rest, base, rfl, List.mk_mem_zipIdx_iff_getElem?.1 position, passes, came⟩
  · rintro ⟨i, rest, base, rfl, position, passes, came⟩
    refine List.mem_flatMap.2 ⟨(base, i), List.mk_mem_zipIdx_iff_getElem?.2 position, ?_⟩
    exact List.mem_map.2 ⟨(rest, a), List.mem_filter.2 ⟨came, passes⟩, rfl⟩

theorem map_snd_handedDown (all : ∀ base ∈ bases, (arrivals base).map (·.2) = base.attributes) :
    (handedDown arrivals bases).map (·.2) =
      bases.flatMap fun base => base.attributes.filter base.passesOn := by
  have each : ∀ x ∈ bases.zipIdx,
      (((arrivals x.1).filter fun y => x.1.passesOn y.2).map fun y => (x.2 :: y.1, y.2)).map (·.2) =
        x.1.attributes.filter x.1.passesOn := by
    rintro ⟨base, i⟩ position
    have listed := List.mem_of_getElem? (List.mk_mem_zipIdx_iff_getElem?.1 position)
    rw [List.map_map, ← all base listed, List.filter_map]
    rfl
  calc (handedDown arrivals bases).map (·.2)
    _ = bases.zipIdx.flatMap fun x => x.1.attributes.filter x.1.passesOn := by
        unfold handedDown
        rw [List.map_flatMap]
        exact List.flatMap_congr each
    _ = (bases.zipIdx.map (·.1)).flatMap fun base => base.attributes.filter base.passesOn := by
        rw [List.flatMap_map]
    _ = bases.flatMap fun base => base.attributes.filter base.passesOn := by
        rw [List.zipIdx_map_fst]

theorem nodup_handedDown (once : ∀ base ∈ bases, (arrivals base).Nodup) :
    (handedDown arrivals bases).Nodup := by
  unfold handedDown
  rw [List.nodup_flatMap]
  constructor
  · rintro ⟨base, i⟩ position
    have listed := List.mem_of_getElem? (List.mk_mem_zipIdx_iff_getElem?.1 position)
    refine ((once base listed).filter _).map ?_
    rintro ⟨way, a⟩ ⟨way', a'⟩ same
    cases same
    rfl
  · have positions : (bases.zipIdx.map (·.2)).Nodup := by
      rw [List.zipIdx_map_snd]
      exact List.nodup_range'
    refine (List.pairwise_map.1 positions).imp ?_
    rintro ⟨base, i⟩ ⟨base', i'⟩ apart ⟨way, a⟩ came came'
    -- the ways begin at different positions
    obtain ⟨⟨_, _⟩, _, same⟩ := List.mem_map.1 came
    obtain ⟨⟨_, _⟩, _, same'⟩ := List.mem_map.1 came'
    cases same
    cases same'
    exact apart rfl

end HandedDown

namespace Schema

variable {d : Document} {s : Schema} {m : Model} {a : Attribute}

/-- The list holds all that comes to a model, in the order of its attributes. -/
structure Arrivals (s : Schema) (d : Document) (m : Model)
    (arrivals : List (List Nat × Attribute)) : Prop where
  nodup : arrivals.Nodup
  attributes : arrivals.map (·.2) = m.attributes
  mem_iff : ∀ way a, (way, a) ∈ arrivals ↔ s.ComesAlong d a m way

theorem superTypeAt_eq {bases : List Model}
    (found : List.Forall₂ (fun name base => s.model? name = some base) m.superTypes bases)
    (i : Nat) : s.superTypeAt m i = bases[i]? := by
  unfold superTypeAt
  generalize m.superTypes = names at found
  induction found generalizing i with
  | nil => rfl
  | cons first _ ih =>
    cases i with
    | zero => exact first
    | succ i => exact ih i

/-- What comes to a merged model: its own attributes on the spot, the others from above. -/
theorem Arrivals.of_bases {declared own : Model} {bases : List Model}
    {arrivals : Model → List (List Nat × Attribute)} (distinct : d.modelNames.Nodup)
    (different : d.modelUsages.Nodup) (hdeclared : declared ∈ modelsOf d.declarations)
    (resolves : d.registry.ResolvesModel declared own)
    (found : List.Forall₂ (fun name base => s.model? name = some base) own.superTypes bases)
    (above : ∀ base ∈ bases, s.Arrivals d base (arrivals base)) :
    s.Arrivals d (own.withInherited (Inherited.ofBases own bases))
      (own.attributes.map (fun a => ([], a)) ++ handedDown arrivals bases) where
  nodup := by
    rw [List.nodup_append]
    refine ⟨?_, nodup_handedDown fun base hbase => (above base hbase).nodup, ?_⟩
    · exact (nodup_own_attributes different hdeclared resolves).map
        fun _ _ same => (Prod.mk.inj same).2
    · -- what is carried comes along the empty way, and nothing from above does
      rintro ⟨way, a⟩ atHome ⟨way', a'⟩ fromAbove same
      obtain ⟨_, _, here⟩ := List.mem_map.1 atHome
      obtain ⟨_, _, _, longer, _⟩ := mem_handedDown.1 fromAbove
      cases here
      cases same
      cases longer
  attributes := by
    rw [List.map_append, List.map_map,
      map_snd_handedDown fun base hbase => (above base hbase).attributes,
      ← Inherited.attributes_ofBases own]
    show own.attributes.map id ++ _ = own.attributes ++ _
    rw [List.map_id]
  mem_iff := by
    intro way a
    have named : (own.withInherited (Inherited.ofBases own bases)).name = declared.name :=
      resolves.name_eq
    cases way with
    | nil =>
      unfold ComesAlong
      rw [named, ← mem_attributes_iff_carries distinct hdeclared resolves]
      simp [mem_handedDown]
    | cons i way =>
      have positions := superTypeAt_eq (m := own.withInherited (Inherited.ofBases own bases)) found
      constructor
      · intro came
        rcases List.mem_append.1 came with atHome | fromAbove
        · obtain ⟨_, _, same⟩ := List.mem_map.1 atHome
          cases same
        · obtain ⟨_, _, base, same, position, passes, came⟩ := mem_handedDown.1 fromAbove
          cases same
          have arrived := (above base (List.mem_of_getElem? position)).mem_iff way a
          exact ⟨base, (positions i).trans position, passes, arrived.1 came⟩
      · intro ⟨base, position, passes, came⟩
        rw [positions] at position
        have arrived := (above base (List.mem_of_getElem? position)).mem_iff way a
        exact List.mem_append_right _
          (mem_handedDown.2 ⟨i, way, base, rfl, position, passes, arrived.2 came⟩)

/-- **The attributes of a merged model are what comes to it, each along its way.**  The induction
    goes up the super types, which have their attributes before the model has. -/
theorem exists_arrivals (resolved : ofDocument d = .ok s) (plain : d.flattened = false)
    (different : d.modelUsages.Nodup) (hm : m ∈ s.models) :
    ∃ arrivals, s.Arrivals d m arrivals := by
  obtain ⟨_, _, merges⟩ := merges_of_ofDocument resolved plain
  have distinct : d.modelNames.Nodup :=
    modelNames_eq_declared resolved plain ▸ merges.modelNames_nodup
  have found := model?_of_mem merges.modelNames_nodup hm
  generalize m.name = name at found
  induction name using merges.grounded.induction generalizing m with
  | h name ih =>
    obtain ⟨declared, hdeclared, own, bases, resolves, hbases, rfl⟩ :=
      exists_declared resolved plain hm
    -- a list for every model, so that one function can be chosen; it says nothing of the others
    have above : ∀ base, ∃ arrivals, base ∈ bases → s.Arrivals d base arrivals := by
      intro base
      by_cases hbase : base ∈ bases
      · obtain ⟨baseName, listed, found'⟩ := forall₂_exists_left hbases hbase
        obtain ⟨arrivals, all⟩ :=
          ih baseName ((lists_iff found).2 listed) (mem_of_findModel? found') found'
        exact ⟨arrivals, fun _ => all⟩
      · exact ⟨[], fun listed => absurd listed hbase⟩
    choose arrivals all using above
    exact ⟨_, Arrivals.of_bases distinct different hdeclared resolves hbases all⟩

section Arrived

variable (resolved : ofDocument d = .ok s) (plain : d.flattened = false)
  (different : d.modelUsages.Nodup) (hm : m ∈ s.models)

include resolved plain different hm

theorem mem_attributes_iff : a ∈ m.attributes ↔ ∃ way, s.ComesAlong d a m way := by
  obtain ⟨arrivals, all⟩ := exists_arrivals resolved plain different hm
  rw [← all.attributes, List.mem_map]
  constructor
  · rintro ⟨⟨way, a⟩, came, rfl⟩
    exact ⟨way, (all.mem_iff way a).1 came⟩
  · intro ⟨way, came⟩
    exact ⟨(way, a), (all.mem_iff way a).2 came, rfl⟩

/-- **An attribute is repeated where it comes along two ways.** -/
theorem nodup_attributes_iff :
    m.attributes.Nodup ↔
      ∀ a way way', s.ComesAlong d a m way → s.ComesAlong d a m way' → way = way' := by
  obtain ⟨arrivals, all⟩ := exists_arrivals resolved plain different hm
  rw [← all.attributes, List.nodup_map_iff_inj_on all.nodup]
  constructor
  · intro apart a way way' came came'
    have same := apart (way, a) ((all.mem_iff way a).2 came) (way', a)
      ((all.mem_iff way' a).2 came') rfl
    exact (Prod.mk.inj same).1
  · rintro oneWay ⟨way, a⟩ came ⟨way', a'⟩ came' same
    cases (same : a = a')
    rw [oneWay a way way' ((all.mem_iff way a).1 came) ((all.mem_iff way' a).1 came')]

/-- What a super type hands down, the model has. -/
theorem mem_attributes_of_base {base : Model} {i : Nat} (position : s.superTypeAt m i = some base)
    (ha : a ∈ base.attributes) (passes : base.passesOn a = true) : a ∈ m.attributes := by
  obtain ⟨_, _, found⟩ := Option.bind_eq_some_iff.1 position
  obtain ⟨way, came⟩ :=
    (mem_attributes_iff resolved plain different (mem_of_findModel? found)).1 ha
  exact (mem_attributes_iff resolved plain different hm).2
    ⟨i :: way, base, position, passes, came⟩

/-- **An attribute that two super types hand down is repeated.** -/
theorem not_nodup_of_two_bases {base base' : Model} {i i' : Nat} (apart : i ≠ i')
    (position : s.superTypeAt m i = some base) (position' : s.superTypeAt m i' = some base')
    (ha : a ∈ base.attributes) (ha' : a ∈ base'.attributes) (passes : base.passesOn a = true)
    (passes' : base'.passesOn a = true) : ¬ m.attributes.Nodup := by
  obtain ⟨_, _, found⟩ := Option.bind_eq_some_iff.1 position
  obtain ⟨_, _, found'⟩ := Option.bind_eq_some_iff.1 position'
  obtain ⟨way, came⟩ :=
    (mem_attributes_iff resolved plain different (mem_of_findModel? found)).1 ha
  obtain ⟨way', came'⟩ :=
    (mem_attributes_iff resolved plain different (mem_of_findModel? found')).1 ha'
  intro once
  have sameWay := (nodup_attributes_iff resolved plain different hm).1 once a (i :: way)
    (i' :: way') ⟨base, position, passes, came⟩ ⟨base', position', passes', came'⟩
  exact apart (List.cons.inj sameWay).1

end Arrived

/-! ## §4. Paths of super types -/

/-- The model `name` lists the model `base`, which hands the attribute down. -/
def HandsDown (s : Schema) (a : Attribute) (name base : String) : Prop :=
  s.Lists name base ∧ ∃ b, s.model? base = some b ∧ b.passesOn a = true

theorem below_of_handsDown {lower upper : String} (path : TransGen (s.HandsDown a) lower upper) :
    s.Below lower upper :=
  TransGen.mono (fun _ _ hands => And.left hands) lower upper path

theorem exists_of_superTypeAt {base : Model} {i : Nat} (h : s.superTypeAt m i = some base) :
    m.superTypes[i]? = some base.name ∧ s.model? base.name = some base := by
  obtain ⟨name, listed, found⟩ := Option.bind_eq_some_iff.1 h
  have named : base.name = name := name_of_findModel? found
  rw [named]
  exact ⟨listed, found⟩

/-- A way that is not empty is a path of super types. -/
theorem ComesAlong.path {i : Nat} {way : List Nat} (known : s.model? m.name = some m)
    (h : s.ComesAlong d a m (i :: way)) :
    ∃ top, d.Carries top a ∧ TransGen (s.HandsDown a) m.name top := by
  induction way generalizing m i with
  | nil =>
    obtain ⟨base, position, passes, carries⟩ := h
    obtain ⟨listed, found⟩ := exists_of_superTypeAt position
    have lists := (lists_iff known).2 (List.mem_of_getElem? listed)
    exact ⟨base.name, carries, TransGen.single ⟨lists, base, found, passes⟩⟩
  | cons i' way ih =>
    obtain ⟨base, position, passes, came⟩ := h
    obtain ⟨listed, found⟩ := exists_of_superTypeAt position
    have lists := (lists_iff known).2 (List.mem_of_getElem? listed)
    obtain ⟨top, carries, path⟩ := ih found came
    exact ⟨top, carries, TransGen.head ⟨lists, base, found, passes⟩ path⟩

/-- What comes to a model from above, the model does not carry itself. -/
theorem ComesAlong.not_carries {own : Schema} {i : Nat} {way : List Nat} (merges : Merges own s)
    (different : d.modelUsages.Nodup) (known : s.model? m.name = some m)
    (h : s.ComesAlong d a m (i :: way)) : ¬ d.Carries m.name a := by
  intro carries
  obtain ⟨top, carries', path⟩ := h.path known
  cases carries.unique different carries'
  exact merges.not_below_self m.name (below_of_handsDown path)

/-- **There is one way to each attribute where models have one super type at most.** -/
theorem way_unique_of_single {own : Schema} (merges : Merges own s)
    (different : d.modelUsages.Nodup) (single : ∀ m ∈ s.models, m.superTypes.length ≤ 1)
    {way way' : List Nat} (known : s.model? m.name = some m) (h : s.ComesAlong d a m way)
    (h' : s.ComesAlong d a m way') : way = way' := by
  induction way generalizing m way' with
  | nil =>
    cases way' with
    | nil => rfl
    | cons i' way' => exact absurd h (h'.not_carries merges different known)
  | cons i way ih =>
    cases way' with
    | nil => exact absurd h' (h.not_carries merges different known)
    | cons i' way' =>
      obtain ⟨base, position, _, came⟩ := h
      obtain ⟨base', position', _, came'⟩ := h'
      obtain ⟨listed, found⟩ := exists_of_superTypeAt position
      obtain ⟨listed', _⟩ := exists_of_superTypeAt position'
      -- both ways take the only super type
      have bound := (List.getElem?_eq_some_iff.1 listed).1
      have bound' := (List.getElem?_eq_some_iff.1 listed').1
      have only := single m (mem_of_findModel? known)
      have first : i = i' := by omega
      cases first
      cases position.symm.trans position'
      rw [ih found came came']

end Schema

/-! ## §5. What is handed down -/

/-- Only attributes that mean no single table are handed down. -/
theorem Model.isNamed_of_passesOn {base : Model} {a : Attribute} (h : base.passesOn a = true)
    {name : String} (never : name ∈ neverInherited) : a.isNamed name = false := by
  rw [Bool.eq_false_iff]
  intro named
  have canonical : a.canonicalName = some name := by simpa [Attribute.isNamed] using named
  unfold Model.passesOn at h
  rw [canonical] at h
  simp [never] at h

/-- A delegate hands no index down. -/
theorem Model.isDelegate_of_passesOn {base : Model} {a : Attribute} (h : base.passesOn a = true)
    {name : String} (kept : name ∈ keptByDelegate) (named : a.isNamed name = true) :
    base.isDelegate = false := by
  have canonical : a.canonicalName = some name := by simpa [Attribute.isNamed] using named
  unfold Model.passesOn at h
  rw [canonical] at h
  simp only [Bool.and_eq_true, Bool.not_eq_true', Bool.and_eq_false_iff] at h
  rcases h.2 with plain | other
  · exact plain
  · simp [kept] at other

namespace Schema

/-- **What a merged model inherits, and what it repeats.**  Take a document that is not flattened
    and whose models have usages that are all written differently.  A merged model has its own
    attributes first, as they are resolved.  Of the inherited ones none is a `@@delegate` or a
    `@@map`, and each comes from the one model that carries it, which is above; a `@@unique`, an
    `@@index` or a `@@fulltext` comes along models that are no delegates.  The model repeats no
    attribute exactly where there is no attribute that comes to it along two ways. -/
theorem attributes_once_iff_one_way {d : Document} {s : Schema} (resolved : ofDocument d = .ok s)
    (plain : d.flattened = false) (different : d.modelUsages.Nodup) {m : Model}
    (hm : m ∈ s.models) :
    ∃ declared ∈ modelsOf d.declarations, ∃ own inherited, declared.name = m.name ∧
      List.Forall₂ (fun usage a => d.registry.resolve usage = .ok a) declared.attributes own ∧
      m.attributes = own ++ inherited ∧
      (∀ a ∈ inherited,
        (∀ name ∈ ["@@delegate", "@@map"], a.isNamed name = false) ∧
        ∃ top, (∀ name, d.Carries name a ↔ name = top) ∧ s.Below m.name top ∧
          ∀ name ∈ ["@@unique", "@@index", "@@fulltext"], a.isNamed name = true →
            TransGen s.ListsPlain m.name top) ∧
      (m.attributes.Nodup ↔
        ∀ a way way', s.ComesAlong d a m way → s.ComesAlong d a m way' → way = way') := by
  have once := nodup_attributes_iff resolved plain different hm
  have known := model?_of_mem (modelNames_nodup_of_ofDocument resolved) hm
  obtain ⟨declared, hdeclared, u, bases, resolves, hbases, rfl⟩ :=
    exists_declared resolved plain hm
  refine ⟨declared, hdeclared, u.attributes, (Inherited.ofBases u bases).attributes,
    resolves.name_eq.symm, resolves.attributes, rfl, ?_, once⟩
  intro a ha
  rw [Inherited.attributes_ofBases] at ha
  obtain ⟨base, hbase, ha⟩ := List.mem_flatMap.1 ha
  obtain ⟨ha, passes⟩ := List.mem_filter.1 ha
  refine ⟨fun name never => Model.isNamed_of_passesOn passes never, ?_⟩
  -- the attribute came to the super type along some way, and from there to the model
  obtain ⟨baseName, _, found⟩ := forall₂_exists_left hbases hbase
  obtain ⟨way, came⟩ :=
    (mem_attributes_iff resolved plain different (mem_of_findModel? found)).1 ha
  obtain ⟨i, position⟩ := List.mem_iff_getElem?.1 hbase
  have arrives : s.ComesAlong d a (u.withInherited (Inherited.ofBases u bases)) (i :: way) :=
    ⟨base, (superTypeAt_eq hbases i).trans position, passes, came⟩
  obtain ⟨top, carries, path⟩ := arrives.path known
  refine ⟨top, fun name => ⟨fun h => h.unique different carries, fun same => same ▸ carries⟩,
    below_of_handsDown path, ?_⟩
  intro name kept named
  refine TransGen.mono ?_ _ _ path
  intro _ _ ⟨lists, b, found, passes⟩
  exact ⟨lists, b, found, Model.isDelegate_of_passesOn passes kept named⟩

end Schema

/-- Pages and drafts have an address, and pages are stored under a name of their own.  What is both
    lists the given super types. -/
def pages (superTypes : List String) : Document where
  declarations := [
    .model {
      name := "Entity"
      isAbstract := true
      fields := [
        { name := "id", type := { scalar := some "Int" }, attributes := [{ name := "@id" }] },
        { name := "slug", type := { scalar := some "String" } }]
      attributes := [
        { name := "@@index", args := [{ name := none, value := .array [.ref "slug"] }] }] },
    .model {
      name := "Page"
      superTypes := ["Entity"]
      attributes := [
        { name := "@@map", args := [{ name := none, value := .literal (.string "pages") }] }] },
    .model { name := "Draft", superTypes := ["Entity"] },
    .model { name := "DraftPage", superTypes }]

theorem modelUsages_pages (superTypes : List String) : (pages superTypes).modelUsages.Nodup := by
  have names : ((pages superTypes).modelUsages.map (·.name)).Nodup := by
    show ["@@index", "@@map"].Nodup
    decide
  exact names.of_map

/-- A page that is a draft and lists only the pages has the index once. -/
theorem draftPage_inherits_index :
    ∃ s, Schema.ofDocument (pages ["Page"]) = .ok s ∧ (pages ["Page"]).modelUsages.Nodup ∧
      ∃ m ∈ s.models, m.name = "DraftPage" ∧
        m.attributes.map Attribute.canonicalName = [some "@@index"] ∧ m.attributes.Nodup := by
  have test : (Schema.ofDocument (pages ["Page"])).toOption.any (fun s =>
      (s.models.all fun m => decide (m.superTypes.length ≤ 1)) &&
        s.models.any fun m => m.name == "DraftPage" &&
          m.attributes.map Attribute.canonicalName == [some "@@index"]) = true := by
    decide +kernel
  simp only [Option.any_eq_true, Bool.and_eq_true, List.all_eq_true, List.any_eq_true,
    decide_eq_true_eq, beq_iff_eq] at test
  obtain ⟨s, resolved, single, m, hm, named, index⟩ := test
  have resolved := eq_ok_of_toOption resolved
  have different := modelUsages_pages ["Page"]
  obtain ⟨_, _, merges⟩ := Schema.merges_of_ofDocument resolved rfl
  have known := Schema.model?_of_mem merges.modelNames_nodup hm
  obtain ⟨_, _, _, _, _, _, _, _, once⟩ :=
    Schema.attributes_once_iff_one_way resolved rfl different hm
  refine ⟨s, resolved, different, m, hm, named, index, once.2 ?_⟩
  intro a way way' came came'
  exact Schema.way_unique_of_single merges different single known came came'

/-- **An attribute can be inherited twice**: pages and drafts have one index, which comes to a page
    that is a draft from both. -/
theorem draftPage_repeats_index :
    ∃ s, Schema.ofDocument (pages ["Page", "Draft"]) = .ok s ∧
      (pages ["Page", "Draft"]).flattened = false ∧
      (pages ["Page", "Draft"]).modelUsages.Nodup ∧
      ∃ m ∈ s.models, m.name = "DraftPage" ∧
        m.attributes.map Attribute.canonicalName = [some "@@index", some "@@index"] ∧
        ¬ m.attributes.Nodup := by
  have test : (Schema.ofDocument (pages ["Page", "Draft"])).toOption.any (fun s =>
      s.models.any fun m => m.name == "DraftPage" && m.superTypes == ["Page", "Draft"] &&
        m.attributes.map Attribute.canonicalName == [some "@@index", some "@@index"] &&
        (s.model? "Entity").any fun entity => (s.model? "Page").any fun page =>
          (s.model? "Draft").any fun draft => page.superTypes == ["Entity"] &&
            draft.superTypes == ["Entity"] && entity.attributes.any fun a =>
              entity.passesOn a && page.passesOn a && draft.passesOn a) = true := by
    decide +kernel
  simp only [Option.any_eq_true, Bool.and_eq_true, List.any_eq_true, beq_iff_eq] at test
  obtain ⟨s, resolved, m, hm, ⟨⟨named, listed⟩, index⟩, entity, hentity, page, hpage, draft, hdraft,
    ⟨pageListed, draftListed⟩, a, ha, ⟨entityPasses, pagePasses⟩, draftPasses⟩ := test
  have resolved := eq_ok_of_toOption resolved
  have different := modelUsages_pages ["Page", "Draft"]
  have onPage : a ∈ page.attributes := by
    refine Schema.mem_attributes_of_base (i := 0) resolved rfl different
      (mem_of_findModel? hpage) ?_ ha entityPasses
    rw [Schema.superTypeAt, pageListed]
    exact hentity
  have onDraft : a ∈ draft.attributes := by
    refine Schema.mem_attributes_of_base (i := 0) resolved rfl different
      (mem_of_findModel? hdraft) ?_ ha entityPasses
    rw [Schema.superTypeAt, draftListed]
    exact hentity
  refine ⟨s, resolved, rfl, different, m, hm, named, index, ?_⟩
  refine Schema.not_nodup_of_two_bases resolved rfl different hm (show 0 ≠ 1 by decide)
    ?_ ?_ onPage onDraft pagePasses draftPasses
  · rw [Schema.superTypeAt, listed]
    exact hpage
  · rw [Schema.superTypeAt, listed]
    exact hdraft

end DelegateSchema
