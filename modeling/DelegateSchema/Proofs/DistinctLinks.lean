/-
  DelegateSchema.Proofs.DistinctLinks — the names of physical links.

  A link is called after the model that it leads to, with a small first letter, and its constraint
  after both models.  The links of one block share it with the fields of the model, and lead up and
  down from it; the constraints share the whole database.  All these names go through the memory of
  identifiers.  Where model names begin with a capital and have no underscore, the models can be
  read off the names, and no model is linked twice: it cannot stand above and below another.

  Main results:
    * `Text.lowerFirst_inj`, `linkName_inj` — the models can be read off the names of links and of
      their constraints,
    * `asked_links` — the names that the links of a model ask for,
    * `nodup_linkedModels` — a block has one link to each model that it is linked to,
    * `linkConstraints_eq` — the constraint names of an output,
    * `nodup_fieldNames_block` — when the block of a declaration repeats a name,
    * `physical_names_distinct` — the names of a physical output are distinct.
-/
import DelegateSchema.Proofs.DistinctNames
import DelegateSchema.Proofs.Headings
import DelegateSchema.Proofs.Links

namespace DelegateSchema

open Identifier (Memory ofShort)

/-! ## §1. Small first letters -/

namespace Text

/-- The text begins with an ASCII capital. -/
def Capitalised (s : String) : Prop :=
  s.toList.head?.any Char.isUpper = true

instance : DecidablePred Capitalised :=
  fun _ => inferInstanceAs (Decidable (_ = true))

theorem Capitalised.exists_cons {s : String} (h : Capitalised s) :
    ∃ c rest, s.toList = c :: rest ∧ c.isUpper = true := by
  unfold Capitalised at h
  cases chars : s.toList with
  | nil => simp [chars] at h
  | cons c rest => exact ⟨c, rest, rfl, by simpa [chars] using h⟩

/-- The small form of an ASCII capital: one character, which gives the capital back and is no
    underscore. -/
theorem lowerChar_of_isUpper {c : Char} (capital : c.isUpper = true) :
    lowerChar c = [c.toLower] ∧ c.toLower.toUpper = c ∧ '_' ≠ c.toLower := by
  have ascii : c.toNat < 128 := by
    have range : c.val ≥ 'A'.val ∧ c.val ≤ 'Z'.val := of_decide_eq_true capital
    have atMost : c.toNat ≤ 90 := range.2
    omega
  have all : ∀ n < 128, (Char.ofNat n).isUpper = true →
      lowerChar (Char.ofNat n) = [(Char.ofNat n).toLower] ∧
      (Char.ofNat n).toLower.toUpper = Char.ofNat n ∧ '_' ≠ (Char.ofNat n).toLower := by
    decide +kernel
  have here := all c.toNat ascii
  rw [Char.ofNat_toNat] at here
  exact here capital

variable {s t : String}

theorem toList_lowerFirst {c : Char} {rest : List Char} (chars : s.toList = c :: rest)
    (capital : c.isUpper = true) : (lowerFirst s).toList = c.toLower :: rest := by
  unfold lowerFirst
  simp [chars, (lowerChar_of_isUpper capital).1]

/-- **A small first letter hides no name**, where it was an ASCII capital. -/
theorem lowerFirst_inj (hs : Capitalised s) (ht : Capitalised t) :
    lowerFirst s = lowerFirst t ↔ s = t := by
  obtain ⟨c, rest, chars, capital⟩ := hs.exists_cons
  obtain ⟨c', rest', chars', capital'⟩ := ht.exists_cons
  constructor
  · intro same
    have lists := congrArg String.toList same
    rw [toList_lowerFirst chars capital, toList_lowerFirst chars' capital'] at lists
    obtain ⟨letters, rests⟩ := List.cons.inj lists
    -- the capital is the large form of the small letter
    have capitals : c = c' := by
      rw [← (lowerChar_of_isUpper capital).2.1, letters, (lowerChar_of_isUpper capital').2.1]
    rw [← String.toList_inj, chars, chars', capitals, rests]
  · intro same
    rw [same]

theorem underscore_notMem_lowerFirst (hs : Capitalised s) (plain : '_' ∉ s.toList) :
    '_' ∉ (lowerFirst s).toList := by
  obtain ⟨c, rest, chars, capital⟩ := hs.exists_cons
  rw [toList_lowerFirst chars capital]
  rw [chars] at plain
  intro h
  rcases List.mem_cons.1 h with first | later
  · exact (lowerChar_of_isUpper capital).2.2 first
  · exact plain (List.mem_cons_of_mem _ later)

end Text

/-! ## §2. The names that links ask for -/

namespace Identifier.Asking

variable {α β : Type} {shortOf : String → String}

theorem asked_mapM (f : α → Asking β) (xs : List α) :
    (xs.mapM f).asked shortOf = xs.flatMap fun x => (f x).asked shortOf := by
  induction xs with
  | nil => rfl
  | cons x xs ih =>
    rw [List.mapM_cons, asked_bind, asked_bind, ih, List.flatMap_cons]
    show _ ++ (_ ++ []) = _
    rw [List.append_nil]

end Identifier.Asking

theorem Compile.asked_lift {α : Type} {shortOf : String → String} (x : Identifier.Asking α) :
    Compile.asked shortOf (ExceptT.lift x) = x.asked shortOf := by
  show (x >>= fun a => pure (Except.ok a)).asked shortOf = _
  rw [Identifier.Asking.asked_bind]
  exact List.append_nil _

namespace Job

variable {j : Job} {m base : Model} {memory : Memory} {shortOf : String → String}

/-- The name of the constraint of a link, before it is shortened. -/
def linkName (m base : Model) : String :=
  m.name ++ "_" ++ Text.lowerFirst base.name

/-- The subtypes that a delegate is linked to. -/
def linkedSubtypes (j : Job) (m : Model) : List Model :=
  if m.isDelegate then j.concreteModels.filter fun c => c.superTypes.contains m.name else []

/-- All models that a model is linked to, in the order of the links. -/
def linkedModels (j : Job) (m : Model) : List Model :=
  j.linkedSubtypes m ++ j.delegateBases m

theorem asked_linkToBase :
    (j.linkToBase m base).asked shortOf =
      Text.lowerFirst base.name ::
        if j.schema.namesConstraints then [linkName m base] else [] := by
  unfold linkToBase linkConstraint
  split
  next => rfl
  next => rfl

/-- The links of a model ask for the names of the models that they lead to, and where constraints
    have names, for the names of the constraints. -/
theorem asked_links (acyclic : ∀ c ∈ j.schema.models, c.name ∉ c.superTypes) :
    (j.links m).asked shortOf =
      (j.linkedSubtypes m).map (fun c => Text.lowerFirst c.name) ++
        (j.delegateBases m).flatMap fun base =>
          Text.lowerFirst base.name ::
            if j.schema.namesConstraints then [linkName m base] else [] := by
  have down : (j.linksToSubtypes m).asked shortOf =
      (j.linkedSubtypes m).map fun c => Text.lowerFirst c.name := by
    unfold linksToSubtypes linkedSubtypes
    split
    next =>
      rw [Identifier.Asking.asked_mapM, directSubtypes_eq acyclic, List.map_eq_flatMap]
      rfl
    next => rfl
  have up : (j.linksToBases m).asked shortOf =
      (j.delegateBases m).flatMap fun base => Text.lowerFirst base.name ::
        if j.schema.namesConstraints then [linkName m base] else [] := by
    unfold linksToBases
    rw [Identifier.Asking.asked_mapM]
    simp only [asked_linkToBase]
  unfold links
  rw [Identifier.Asking.asked_bind, Identifier.Asking.asked_bind, down, up]
  show _ ++ (_ ++ []) = _
  rw [List.append_nil]

/-- The memory that a physical build leaves knows the names of all links and constraints. -/
theorem knows_links {memory memory' : Memory} {out : Target.Schema} (physical : j.mode = .physical)
    (built : j.build memory = (.ok out, memory')) (hm : m ∈ j.concreteModels) :
    ∀ name ∈ (j.links m).asked memory'.shorten, memory'.Knows name := by
  intro name hname
  refine knows_of_compileModel built hm ?_
  obtain ⟨block, _, ok⟩ := forall₂_exists_right (forall₂_modelBlocks (build_eq_ok built)) hm
  obtain ⟨start, own, _⟩ := compileModel_eq_ok ok
  unfold compileModel completeBlock
  rw [Compile.asked_bind_of_ok (x := Compile.ofExcept (j.ownBlock m)) own, physical]
  dsimp only
  rw [Compile.asked_bind_of_ok (Compile.answer_lift _ (j.links m)), Compile.asked_lift]
  simp [hname]

/-! ## §3. The models that a model is linked to -/

theorem mem_linkedSubtypes {c : Model} (h : c ∈ j.linkedSubtypes m) :
    c ∈ j.concreteModels ∧ m.name ∈ c.superTypes := by
  unfold linkedSubtypes at h
  split at h
  next =>
    obtain ⟨known, lists⟩ := List.mem_filter.1 h
    exact ⟨known, List.contains_iff_mem.1 lists⟩
  next => cases h

theorem mem_delegateBases (h : base ∈ j.delegateBases m) :
    j.schema.model? base.name = some base ∧ base.name ∈ m.superTypes := by
  obtain ⟨name, listed, found⟩ := List.mem_filterMap.1 (List.mem_of_mem_filter h)
  have named : base.name = name := name_of_findModel? found
  rw [named]
  exact ⟨found, listed⟩

theorem mem_models_of_linkedModels {c : Model} (h : c ∈ j.linkedModels m) :
    c ∈ j.schema.models := by
  rcases List.mem_append.1 h with below | above
  · exact (mem_concreteModels.1 (mem_linkedSubtypes below).1).1
  · exact mem_of_findModel? (mem_delegateBases above).1

/-- The names of the delegates that a model lists, in listed order. -/
theorem names_delegateBases_sublist (j : Job) (m : Model) :
    ((j.delegateBases m).map (·.name)).Sublist m.superTypes := by
  have names : ∀ listed : List String,
      ((listed.filterMap j.schema.model?).map (·.name)).Sublist listed := by
    intro listed
    induction listed with
    | nil => exact List.Sublist.slnil
    | cons name listed ih =>
      rw [List.filterMap_cons]
      cases found : j.schema.model? name with
      | none => exact ih.cons name
      | some b =>
        have named : b.name = name := name_of_findModel? found
        rw [List.map_cons, named]
        exact ih.cons_cons name
  exact (List.filter_sublist.map _).trans (names m.superTypes)

/-- **A model has one link to each model that it is linked to.**  A model that it lists as a super
    type cannot list it in turn. -/
theorem nodup_linkedModels {own : Schema} (merges : Schema.Merges own j.schema)
    (hm : m ∈ j.schema.models) (once : m.superTypes.Nodup) :
    ((j.linkedModels m).map (·.name)).Nodup := by
  have distinct := merges.modelNames_nodup
  unfold linkedModels
  rw [List.map_append, List.nodup_append]
  refine ⟨?_, once.sublist (names_delegateBases_sublist j m), ?_⟩
  · have below : (j.linkedSubtypes m).Sublist j.schema.models := by
      unfold linkedSubtypes
      split
      next => exact List.filter_sublist.trans List.filter_sublist
      next => exact List.nil_sublist _
    exact distinct.sublist (below.map _)
  · intro name hname name' hname' same
    obtain ⟨c, hc, rfl⟩ := List.mem_map.1 hname
    obtain ⟨b, hb, rfl⟩ := List.mem_map.1 hname'
    obtain ⟨concrete, lists⟩ := mem_linkedSubtypes hc
    obtain ⟨_, listed⟩ := mem_delegateBases hb
    have found := Schema.model?_of_mem distinct hm
    have found' := Schema.model?_of_mem distinct (mem_concreteModels.1 concrete).1
    -- the subtype of that name would be above the model and below it
    refine merges.not_below_self m.name (Relation.TransGen.head (b := c.name) ?_
      (Relation.TransGen.single ?_))
    · rw [same]
      exact (Schema.lists_iff found).2 listed
    · exact (Schema.lists_iff found').2 lists

/-- **The names of two constraints tell their models apart.** -/
theorem linkName_inj {m' base' : Model} (plain : '_' ∉ m.name.toList)
    (plainBase : '_' ∉ base.name.toList) (capital : Text.Capitalised base.name)
    (capital' : Text.Capitalised base'.name) :
    linkName m base = linkName m' base' ↔ m.name = m'.name ∧ base.name = base'.name := by
  have chars : ∀ m base : Model, (linkName m base).toList =
      m.name.toList ++ '_' :: (Text.lowerFirst base.name).toList := by
    intro m base
    simp [linkName, String.toList_append]
  rw [← String.toList_inj, chars, chars,
    List.append_cons_inj_of_notMem plain (Text.underscore_notMem_lowerFirst capital plainBase),
    String.toList_inj, String.toList_inj, Text.lowerFirst_inj capital capital']
  simp

end Job

/-! ## §4. The names of a physical block -/

/-- Whether the name of a field begins as all generated ones do. -/
def Target.Field.isGenerated (f : Target.Field) : Bool :=
  "delegate_aux_".toList.isPrefixOf f.name.toList

/-- The name of the constraint of a generated relation, as its `map` gives it. -/
def Target.Field.linkConstraint? (f : Target.Field) : Option Target.Value :=
  if f.isGenerated then ((f.attribute? "@relation").bind (·.arg? "map")).map (·.value) else none

/-- The names of the constraints of all generated relations of an output. -/
def Target.Schema.linkConstraints (out : Target.Schema) : List Target.Value :=
  out.modelBlocks.flatMap fun block => block.fields.filterMap (·.linkConstraint?)

namespace Job

variable {j : Job} {m base : Model} {memory : Memory}

theorem isGenerated_of_identifier {f : Target.Field} {name : String}
    (named : f.name = memory.identifier name) : f.isGenerated = true := by
  unfold Target.Field.isGenerated
  rw [named, Memory.identifier_eq, ofShort_eq, String.toList_append, List.isPrefixOf_iff_prefix]
  exact List.prefix_append _ _

theorem fieldNames_physical {block : Target.ModelBlock} (physical : j.mode = .physical)
    (acyclic : ∀ c ∈ j.schema.models, c.name ∉ c.superTypes)
    (h : (j.compileModel m).answer memory.shorten = .ok block) :
    block.fieldNames = (m.fields.filter (j.emits m)).map (·.name) ++
      (j.linkedModels m).map fun c => memory.identifier (Text.lowerFirst c.name) := by
  obtain ⟨source, emitted, fields⟩ := fields_physical physical acyclic h
  have down : (j.subtypeLinks memory m).map (·.name) =
      (j.linkedSubtypes m).map fun c => memory.identifier (Text.lowerFirst c.name) := by
    unfold subtypeLinks linkedSubtypes
    split
    next => rw [List.map_map]; rfl
    next => rfl
  have up : (j.baseLinks memory m).map (·.name) =
      (j.delegateBases m).map fun c => memory.identifier (Text.lowerFirst c.name) := by
    unfold baseLinks delegateBases
    rw [List.map_map]
    rfl
  unfold Target.ModelBlock.fieldNames linkedModels
  rw [fields, List.map_append, List.map_append, down, up, names_of_forall₂ (mapM_ok_iff.1 emitted),
    List.map_append, List.append_assoc]

/-- The constraint of a link to a delegate has a name where the provider allows for one. -/
theorem linkConstraint?_baseLink :
    (j.baseLink memory m base).linkConstraint? =
      if j.schema.namesConstraints then
        some (.string (memory.identifier (linkName m base) ++ "_fk"))
      else none := by
  have generated : (j.baseLink memory m base).isGenerated = true := isGenerated_of_identifier rfl
  unfold Target.Field.linkConstraint?
  rw [if_pos generated]
  unfold baseLink linkName
  split
  next => rfl
  next => rfl

theorem linkConstraints_physical {block : Target.ModelBlock} (physical : j.mode = .physical)
    (acyclic : ∀ c ∈ j.schema.models, c.name ∉ c.superTypes)
    (unprefixed : ∀ f ∈ m.fields, ¬ "delegate_aux_".toList <+: f.name.toList)
    (h : (j.compileModel m).answer memory.shorten = .ok block) :
    block.fields.filterMap (·.linkConstraint?) =
      if j.schema.namesConstraints then
        (j.delegateBases m).map fun base =>
          .string (memory.identifier (linkName m base) ++ "_fk")
      else [] := by
  obtain ⟨source, emitted, fields⟩ := fields_physical physical acyclic h
  have fromSource : source.filterMap (·.linkConstraint?) = [] := by
    rw [List.filterMap_eq_nil_iff]
    intro g hg
    obtain ⟨f, hf, compiled⟩ := forall₂_exists_left (mapM_ok_iff.1 emitted) hg
    have plain : g.isGenerated = false := by
      unfold Target.Field.isGenerated
      rw [name_toTargetField compiled, Bool.eq_false_iff, Ne, List.isPrefixOf_iff_prefix]
      exact unprefixed f (List.mem_of_mem_filter hf)
    unfold Target.Field.linkConstraint?
    rw [plain]
    rfl
  have fromSubtypes : (j.subtypeLinks memory m).filterMap (·.linkConstraint?) = [] := by
    rw [List.filterMap_eq_nil_iff]
    intro g hg
    unfold subtypeLinks at hg
    split at hg
    next =>
      -- the optional side of a link has no attributes
      obtain ⟨c, _, rfl⟩ := List.mem_map.1 hg
      unfold Target.Field.linkConstraint?
      split
      next => rfl
      next => rfl
    next => cases hg
  have fromBases : (j.baseLinks memory m).filterMap (·.linkConstraint?) =
      if j.schema.namesConstraints then
        (j.delegateBases m).map fun base =>
          .string (memory.identifier (linkName m base) ++ "_fk")
      else [] := by
    have mapped : j.baseLinks memory m = (j.delegateBases m).map (j.baseLink memory m) := rfl
    rw [mapped, List.filterMap_map]
    simp only [Function.comp_def, linkConstraint?_baseLink]
    split
    next => rw [List.filterMap_eq_map']
    next => simp
  rw [fields, List.filterMap_append, List.filterMap_append, fromSource, fromSubtypes, fromBases]
  rfl

/-- **The names in a physical block are distinct**, where those of the model are. -/
theorem nodup_fieldNames_physical {own : Schema} {memory' : Memory} {out : Target.Schema}
    {block : Target.ModelBlock} (merges : Schema.Merges own j.schema)
    (capitals : ∀ c ∈ j.schema.models, Text.Capitalised c.name)
    (unprefixed : ∀ f ∈ m.fields, ¬ "delegate_aux_".toList <+: f.name.toList)
    (physical : j.mode = .physical) (built : j.build memory = (.ok out, memory'))
    (hm : m ∈ j.concreteModels) (once : m.superTypes.Nodup) (distinct : m.fieldNames.Nodup)
    (ok : (j.compileModel m).answer memory'.shorten = .ok block) : block.fieldNames.Nodup := by
  have known := (mem_concreteModels.1 hm).1
  have acyclic : ∀ c ∈ j.schema.models, c.name ∉ c.superTypes :=
    fun c hc => merges.not_listed_self hc
  have asked : ∀ c ∈ j.linkedModels m, memory'.Knows (Text.lowerFirst c.name) := by
    intro c hc
    refine knows_links physical built hm _ ?_
    rw [asked_links acyclic]
    rcases List.mem_append.1 hc with below | above
    · exact List.mem_append_left _ (List.mem_map.2 ⟨c, below, rfl⟩)
    · exact List.mem_append_right _ (List.mem_flatMap.2 ⟨c, above, List.mem_cons_self⟩)
  rw [fieldNames_physical physical acyclic ok, List.nodup_append]
  refine ⟨distinct.sublist (List.filter_sublist.map _), ?_, ?_⟩
  · refine (nodup_linkedModels merges known once).of_map.map_on ?_
    intro c hc c' hc' same
    have short := identifier_inj (asked c hc) (asked c' hc') same
    have models := mem_models_of_linkedModels hc
    have models' := mem_models_of_linkedModels hc'
    have names := (Text.lowerFirst_inj (capitals c models) (capitals c' models')).1 short
    exact List.inj_on_of_nodup_map merges.modelNames_nodup models models' names
  · -- a field of the document begins otherwise than a link
    intro name own name' generated same
    obtain ⟨f, hf, rfl⟩ := List.mem_map.1 own
    obtain ⟨c, _, rfl⟩ := List.mem_map.1 generated
    refine unprefixed f (List.mem_of_mem_filter hf) ?_
    rw [same, Memory.identifier_eq, ofShort_eq, String.toList_append]
    exact List.prefix_append _ _

/-! ## §5. The constraints of an output -/

/-- The links to delegates of all models: each model with the delegates that it lists. -/
def baseLinkEnds (j : Job) : List (Model × Model) :=
  j.concreteModels.flatMap fun m => (j.delegateBases m).map fun base => (m, base)

theorem mem_baseLinkEnds {m base : Model} :
    (m, base) ∈ j.baseLinkEnds ↔ m ∈ j.concreteModels ∧ base ∈ j.delegateBases m := by
  unfold baseLinkEnds
  constructor
  · intro h
    obtain ⟨m', hm', h⟩ := List.mem_flatMap.1 h
    obtain ⟨base', hbase', same⟩ := List.mem_map.1 h
    cases same
    exact ⟨hm', hbase'⟩
  · intro ⟨hm, hbase⟩
    exact List.mem_flatMap.2 ⟨m, hm, List.mem_map.2 ⟨base, hbase, rfl⟩⟩

theorem nodup_baseLinkEnds (distinct : j.schema.modelNames.Nodup)
    (once : ∀ m ∈ j.schema.models, m.superTypes.Nodup) : j.baseLinkEnds.Nodup := by
  unfold baseLinkEnds
  rw [List.nodup_flatMap]
  constructor
  · intro m hm
    have names := (once m (mem_concreteModels.1 hm).1).sublist (names_delegateBases_sublist j m)
    exact names.of_map.map fun _ _ same => (Prod.mk.inj same).2
  · have models : j.concreteModels.Nodup := distinct.of_map.sublist List.filter_sublist
    refine models.imp ?_
    intro m m' different pair hpair hpair'
    obtain ⟨_, _, rfl⟩ := List.mem_map.1 hpair
    obtain ⟨_, _, same⟩ := List.mem_map.1 hpair'
    exact different (Prod.mk.inj same).1.symm

/-- The names of the constraints of a physical output. -/
theorem linkConstraints_eq {memory' : Memory} {out : Target.Schema} (physical : j.mode = .physical)
    (acyclic : ∀ c ∈ j.schema.models, c.name ∉ c.superTypes)
    (unprefixed : ∀ m ∈ j.schema.models, ∀ f ∈ m.fields,
      ¬ "delegate_aux_".toList <+: f.name.toList)
    (built : j.build memory = (.ok out, memory')) :
    out.linkConstraints =
      if j.schema.namesConstraints then
        j.baseLinkEnds.map fun ends =>
          .string (memory'.identifier (linkName ends.1 ends.2) ++ "_fk")
      else [] := by
  have members := (List.forall₂_and_left j.concreteModels out.modelBlocks).2
    ⟨fun m (hm : m ∈ j.concreteModels) => hm, forall₂_modelBlocks (build_eq_ok built)⟩
  have each : List.Forall₂ (fun m block => block.fields.filterMap (·.linkConstraint?) =
      if j.schema.namesConstraints then
        (j.delegateBases m).map fun base =>
          Target.Value.string (memory'.identifier (linkName m base) ++ "_fk")
      else []) j.concreteModels out.modelBlocks := by
    refine members.imp ?_
    intro m block ⟨hm, ok⟩
    exact linkConstraints_physical physical acyclic
      (unprefixed m (mem_concreteModels.1 hm).1) ok
  -- both sides go through the models, so only one model is left to look at
  unfold Target.Schema.linkConstraints baseLinkEnds
  generalize j.concreteModels = models, out.modelBlocks = blocks at each ⊢
  induction each with
  | nil => simp
  | cons first _ ih =>
    rw [List.flatMap_cons, List.flatMap_cons, first, ih]
    by_cases named : j.schema.namesConstraints
    · simp only [named, if_true, List.map_append, List.map_map]
      rfl
    · simp [named]

end Job

/-! ## §6. Blocks without links -/

/-- The names of the fields, values or settings of a block. -/
def Target.Block.fieldNames : Target.Block → List String
  | .datasource b | .generator b => b.settings.map (·.name)
  | .model b => b.fieldNames
  | .enum b => b.fields.map (·.name)

/-- The names of the fields, values or entries of a declaration. -/
def Declaration.fieldNames : Declaration → List String
  | .datasource b | .generator b => b.entries.map (·.name)
  | .enum e => e.fields.map (·.name)
  | .model m => m.fieldNames

theorem map_eq_of_forall₂ {α β γ : Type} {f : α → γ} {g : β → γ} {xs : List α} {ys : List β}
    (h : List.Forall₂ (fun x y => g y = f x) xs ys) : ys.map g = xs.map f := by
  induction h with
  | nil => rfl
  | cons first _ ih => rw [List.map_cons, List.map_cons, first, ih]

theorem ConfigBlock.names_toTarget {b : ConfigBlock} {b' : Target.ConfigBlock}
    (h : b.toTarget = .ok b') : b'.settings.map (·.name) = b.entries.map (·.name) := by
  obtain ⟨settings, ok, h⟩ := bind_ok_iff.1 h
  cases h
  refine map_eq_of_forall₂ ((mapM_ok_iff.1 ok).imp ?_)
  intro entry setting compiled
  obtain ⟨_, _, same⟩ := bind_ok_iff.1 compiled
  cases same
  rfl

theorem EnumDecl.names_toTarget {e : EnumDecl} {b : Target.EnumBlock} (h : e.toTarget = .ok b) :
    b.fields.map (·.name) = e.fields.map (·.name) := by
  obtain ⟨fields, ok, h⟩ := bind_ok_iff.1 h
  obtain ⟨_, _, h⟩ := bind_ok_iff.1 h
  cases h
  refine map_eq_of_forall₂ ((mapM_ok_iff.1 ok).imp ?_)
  intro value compiled ok
  obtain ⟨_, _, same⟩ := bind_ok_iff.1 ok
  cases same
  rfl

namespace Target.ConfigBlock

/-- No two settings of the block have one name. -/
def NamesDistinct (b : ConfigBlock) : Prop :=
  (b.settings.map (·.name)).Nodup

/-- A setting is added only where there is none of its name. -/
theorem namesDistinct_set (b : ConfigBlock) (name text : String) :
    (b.set name text).NamesDistinct ↔ b.NamesDistinct := by
  unfold NamesDistinct ConfigBlock.set
  split
  next =>
    have names : (updateFirst (fun s : Setting => s.name == name)
        (fun s => { s with text }) b.settings).map (·.name) = b.settings.map (·.name) :=
      map_updateFirst (fun _ => by rfl) b.settings
    exact iff_of_eq (congrArg List.Nodup names)
  next missing =>
    -- the new name was looked for and not found
    have new : name ∉ b.settings.map (·.name) := by
      intro taken
      obtain ⟨setting, hsetting, isName⟩ := List.mem_map.1 taken
      exact List.find?_eq_none.1 missing setting hsetting (by simpa using isName)
    rw [List.map_append, List.map_singleton, ← List.concat_eq_append, List.nodup_concat]
    exact and_iff_right new

end Target.ConfigBlock

theorem namesDistinct_checkPreviewFeatures {b b' : Target.ConfigBlock}
    (h : checkPreviewFeatures b = .ok b') : b'.NamesDistinct ↔ b.NamesDistinct := by
  unfold checkPreviewFeatures at h
  dsimp only at h
  split at h
  next =>
    cases h
    rfl
  next =>
    cases h
    exact b.namesDistinct_set _ _
  next => cases h

namespace Job

variable {j : Job} {shortOf : String → String}

/-- The checks on the client generator replace settings, and add one of a new name. -/
theorem namesDistinct_toTargetGenerator {b : ConfigBlock} {b' : Target.ConfigBlock}
    (h : j.toTargetGenerator b = .ok b') :
    b'.NamesDistinct ↔ (b.entries.map (·.name)).Nodup := by
  obtain ⟨start, started, h⟩ := bind_ok_iff.1 h
  rw [← ConfigBlock.names_toTarget started]
  show _ ↔ start.NamesDistinct
  split at h
  next =>
    dsimp only at h
    split at h
    next =>
      obtain ⟨checked, ok, h⟩ := bind_ok_iff.1 h
      rw [← namesDistinct_checkPreviewFeatures ok]
      split at h <;> cases h
      · exact checked.namesDistinct_set _ _
      · rfl
    next =>
      rw [pure_bind] at h
      split at h <;> cases h
      · exact start.namesDistinct_set _ _
      · rfl
  next =>
    cases h
    rfl

/-- **Blocks repeat a name exactly when their declarations do**, if those of models do. -/
theorem nodup_fieldNames_block {decl : Declaration} {block : Target.Block}
    (model : ∀ m b, decl = .model m → m.isAbstract = false →
      (j.compileModel m).answer shortOf = .ok b → (b.fieldNames.Nodup ↔ m.fieldNames.Nodup))
    (h : (j.compileDeclaration decl).answer shortOf = .ok (some block)) :
    block.fieldNames.Nodup ↔ decl.fieldNames.Nodup := by
  cases decl with
  | model m =>
    dsimp only [compileDeclaration] at h
    split at h
    next => cases h
    next concrete =>
      rw [Compile.answer_bind] at h
      obtain ⟨content, ok, h⟩ := bind_ok_iff.1 h
      cases h
      exact model m content rfl (by simpa using concrete) ok
  | datasource b =>
    simp only [compileDeclaration, Compile.answer_bind, Compile.answer_ofExcept] at h
    obtain ⟨content, ok, h⟩ := bind_ok_iff.1 h
    cases h
    exact iff_of_eq (congrArg List.Nodup (ConfigBlock.names_toTarget ok))
  | generator b =>
    simp only [compileDeclaration, Compile.answer_bind, Compile.answer_ofExcept] at h
    obtain ⟨content, ok, h⟩ := bind_ok_iff.1 h
    cases h
    exact namesDistinct_toTargetGenerator ok
  | enum e =>
    simp only [compileDeclaration, Compile.answer_bind, Compile.answer_ofExcept] at h
    obtain ⟨content, ok, h⟩ := bind_ok_iff.1 h
    cases h
    exact iff_of_eq (congrArg List.Nodup (EnumDecl.names_toTarget ok))

/-! ## §7. Whole outputs -/

/-- **The constraints of a physical output have distinct names.** -/
theorem nodup_linkConstraints {own : Schema} {memory' : Memory} {out : Target.Schema}
    (merges : Schema.Merges own j.schema) (once : ∀ m ∈ j.schema.models, m.superTypes.Nodup)
    (capitals : ∀ m ∈ j.schema.models, Text.Capitalised m.name)
    (modelsPlain : ∀ m ∈ j.schema.models, '_' ∉ m.name.toList)
    (unprefixed : ∀ m ∈ j.schema.models, ∀ f ∈ m.fields,
      ¬ "delegate_aux_".toList <+: f.name.toList)
    (physical : j.mode = .physical) (built : j.build memory = (.ok out, memory')) :
    out.linkConstraints.Nodup := by
  have acyclic : ∀ c ∈ j.schema.models, c.name ∉ c.superTypes :=
    fun c hc => merges.not_listed_self hc
  rw [linkConstraints_eq physical acyclic unprefixed built]
  split
  next named =>
    have asked : ∀ m ∈ j.concreteModels, ∀ base ∈ j.delegateBases m,
        memory'.Knows (linkName m base) := by
      intro m hm base hbase
      refine knows_links physical built hm _ ?_
      rw [asked_links acyclic]
      exact List.mem_append_right _ (List.mem_flatMap.2 ⟨base, hbase, by simp [named]⟩)
    refine (nodup_baseLinkEnds merges.modelNames_nodup once).map_on ?_
    rintro ⟨m, base⟩ ends ⟨m', base'⟩ ends' same
    obtain ⟨hm, hbase⟩ := mem_baseLinkEnds.1 ends
    obtain ⟨hm', hbase'⟩ := mem_baseLinkEnds.1 ends'
    have model := (mem_concreteModels.1 hm).1
    have model' := (mem_concreteModels.1 hm').1
    have baseModel := mem_of_findModel? (mem_delegateBases hbase).1
    have baseModel' := mem_of_findModel? (mem_delegateBases hbase').1
    -- the identifiers are equal, so are the names that were asked for, and the models
    have identifiers : memory'.identifier (linkName m base) =
        memory'.identifier (linkName m' base') := by
      simpa using same
    have names :=
      identifier_inj (asked m hm base hbase) (asked m' hm' base' hbase') identifiers
    obtain ⟨sameModel, sameBase⟩ := (linkName_inj (modelsPlain m model)
      (modelsPlain base baseModel) (capitals base baseModel) (capitals base' baseModel')).1 names
    rw [List.inj_on_of_nodup_map merges.modelNames_nodup model model' sameModel,
      List.inj_on_of_nodup_map merges.modelNames_nodup baseModel baseModel' sameBase]
  next => exact List.nodup_nil

/-- The blocks of an output come from the declarations that ask for one, in their order. -/
theorem forall₂_blocks {memory' : Memory} {out : Target.Schema}
    (built : j.build memory = (.ok out, memory')) :
    List.Forall₂ (fun decl block => decl ∈ j.schema.declarations ∧
        (j.compileDeclaration decl).answer memory'.shorten = .ok (some block))
      (j.schema.declarations.filter (·.heading?.isSome)) out.blocks := by
  have ok := build_eq_ok built
  unfold compile at ok
  rw [Compile.answer_bind, Compile.answer_mapM] at ok
  obtain ⟨blocks, all, ok⟩ := bind_ok_iff.1 ok
  cases ok
  have members := (List.forall₂_and_left j.schema.declarations blocks).2
    ⟨fun decl (h : decl ∈ j.schema.declarations) => h, mapM_ok_iff.1 all⟩
  rw [← List.filterMap_eq_filter]
  refine forall₂_filterMap members ?_
  intro decl block? ⟨member, ok⟩
  have heading := heading_compileDeclaration ok
  cases block? with
  | none =>
    rw [show Option.guard (fun decl => decl.heading?.isSome) decl = none by simp [← heading]]
    exact Option.Rel.none
  | some block =>
    rw [show Option.guard (fun decl => decl.heading?.isSome) decl = some decl by
      simp [Option.guard, ← heading]]
    exact Option.Rel.some ⟨member, ok⟩

/-- **The names of a physical output are distinct.**  Take a document in which no model lists a
    super type twice, model names begin with an ASCII capital and have no underscore, and no field
    name begins with `delegate_aux_`, and let the merged models have fields of distinct names.  In
    physical mode, with identifiers of any length, each block repeats a name exactly when its
    declaration does: the names in the block of a model are distinct, links included, and the other
    blocks have no links.  So if no declaration repeats a name, no block does.  The names of the
    constraints of all links of the output are distinct in any case. -/
theorem physical_names_distinct {d : Document} {j : Job} {memory memory' : Memory}
    {out : Target.Schema} (resolved : Schema.ofDocument d = .ok j.schema)
    (plain : d.flattened = false) (once : ∀ u ∈ modelsOf d.declarations, u.superTypes.Nodup)
    (capitals : ∀ u ∈ modelsOf d.declarations, Text.Capitalised u.name)
    (modelsPlain : ∀ u ∈ modelsOf d.declarations, '_' ∉ u.name.toList)
    (unprefixed : ∀ u ∈ modelsOf d.declarations, ∀ f ∈ u.fields,
      ¬ "delegate_aux_".toList <+: f.name.toList)
    (distinct : ∀ m ∈ j.schema.models, m.fieldNames.Nodup) (physical : j.mode = .physical)
    (built : j.build memory = (.ok out, memory')) :
    List.Forall₂ (fun decl block => decl.heading? = some block.heading ∧
        (block.fieldNames.Nodup ↔ decl.fieldNames.Nodup))
      (j.schema.declarations.filter (·.heading?.isSome)) out.blocks ∧
    ((∀ decl ∈ j.schema.declarations, decl.fieldNames.Nodup) →
      ∀ block ∈ out.blocks, block.fieldNames.Nodup) ∧
    (∀ block ∈ out.modelBlocks, block.fieldNames.Nodup) ∧
    out.linkConstraints.Nodup := by
  obtain ⟨own, _, merges⟩ := Schema.merges_of_ofDocument resolved plain
  have once' := Schema.forall_models_of_ofDocument (P := fun _ bases => bases.Nodup) resolved plain
    once
  have capitals' := Schema.forall_models_of_ofDocument (P := fun name _ => Text.Capitalised name)
    resolved plain capitals
  have modelsPlain' := Schema.forall_models_of_ofDocument (P := fun name _ => '_' ∉ name.toList)
    resolved plain modelsPlain
  have unprefixed' : ∀ m ∈ j.schema.models, ∀ f ∈ m.fields,
      ¬ "delegate_aux_".toList <+: f.name.toList := by
    intro m hm
    exact Schema.forall_fields_of_ofDocument
      (Q := fun f => ¬ "delegate_aux_".toList <+: f.name.toList) resolved plain unprefixed
      (fun _ _ h _ => h) (fun _ _ h => h) hm
  have compiled : ∀ m ∈ j.concreteModels, ∀ block,
      (j.compileModel m).answer memory'.shorten = .ok block → block.fieldNames.Nodup := by
    intro m hm block ok
    have known := (mem_concreteModels.1 hm).1
    exact nodup_fieldNames_physical merges capitals' (unprefixed' m known) physical built hm
      (once' m known) (distinct m known) ok
  have exactly : ∀ decl block, decl ∈ j.schema.declarations ∧
      (j.compileDeclaration decl).answer memory'.shorten = .ok (some block) →
      decl.heading? = some block.heading ∧
        (block.fieldNames.Nodup ↔ decl.fieldNames.Nodup) := by
    intro decl block ⟨member, ok⟩
    refine ⟨(heading_compileDeclaration ok).symm, nodup_fieldNames_block ?_ ok⟩
    rintro m b rfl concrete ok
    have hm : m ∈ j.schema.models := List.mem_filterMap.2 ⟨_, member, rfl⟩
    exact iff_of_true (compiled m (mem_concreteModels.2 ⟨hm, concrete⟩) b ok) (distinct m hm)
  have all := forall₂_blocks built
  refine ⟨all.imp exactly, ?_, ?_, nodup_linkConstraints merges once' capitals' modelsPlain'
    unprefixed' physical built⟩
  · intro names block hblock
    obtain ⟨decl, _, made⟩ := forall₂_exists_left all hblock
    exact (exactly decl block made).2.2 (names decl made.1)
  · intro block hblock
    obtain ⟨m, hm, ok⟩ := forall₂_exists_left (forall₂_modelBlocks (build_eq_ok built)) hblock
    exact compiled m hm block ok

/-- The kennel with a client, and with roles of the given names. -/
def staffedKennel (roles : List String) : Document where
  declarations := kennel.declarations ++ [
    .generator { name := "client", entries := [⟨"provider", .literal (.string "prisma-client-js")⟩] },
    .enum { name := "Role", fields := roles.map fun role => { name := role } }]

/-- What the models of a staffed kennel are like. -/
theorem suited_staffedKennel (roles : List String) :
    ∀ u ∈ modelsOf (staffedKennel roles).declarations, u.superTypes.Nodup ∧
      Text.Capitalised u.name ∧ '_' ∉ u.name.toList ∧
      ∀ f ∈ u.fields, ¬ "delegate_aux_".toList <+: f.name.toList := by
  have same : modelsOf (staffedKennel roles).declarations = modelsOf kennel.declarations := by
    simp [staffedKennel, modelsOf, Declaration.model?]
  rw [same]
  decide

/-- In the kennel every model is linked to both others, and all names are distinct, also those of
    the data source, of the client and of the roles. -/
theorem kennel_names_distinct :
    ∃ (j : Job) (memory' : Memory) (out : Target.Schema),
      Schema.ofDocument (staffedKennel ["ADMIN", "USER"]) = .ok j.schema ∧ j.mode = .physical ∧
      j.build (Memory.ofLength Identifier.standardLength) = (.ok out, memory') ∧
      out.blocks.map (·.fieldNames) = [
        ["provider"],
        ["id", "name", "delegate_aux_dog", "delegate_aux_puppy"],
        ["id", "delegate_aux_puppy", "delegate_aux_animal"],
        ["id", "delegate_aux_dog", "delegate_aux_animal"],
        ["provider"], ["ADMIN", "USER"]] ∧
      out.linkConstraints.length = 3 ∧ (∀ block ∈ out.blocks, block.fieldNames.Nodup) ∧
      out.linkConstraints.Nodup := by
  have builds : (staffedKennel ["ADMIN", "USER"]).buildsTo .physical (fun j out =>
      (j.schema.models.all fun m => decide m.fieldNames.Nodup) &&
        (j.schema.declarations.all fun decl => decide decl.fieldNames.Nodup) &&
        out.blocks.map (·.fieldNames) == [
          ["provider"],
          ["id", "name", "delegate_aux_dog", "delegate_aux_puppy"],
          ["id", "delegate_aux_puppy", "delegate_aux_animal"],
          ["id", "delegate_aux_dog", "delegate_aux_animal"],
          ["provider"], ["ADMIN", "USER"]] &&
        out.linkConstraints.length == 3) = true := by
    decide +kernel
  obtain ⟨j, out, memory', resolved, physical, built, test⟩ := Document.exists_build builds
  simp only [Bool.and_eq_true, List.all_eq_true, decide_eq_true_eq, beq_iff_eq] at test
  obtain ⟨⟨⟨distinct, declared⟩, names⟩, three⟩ := test
  have suited := suited_staffedKennel ["ADMIN", "USER"]
  obtain ⟨_, blocks, _, constraints⟩ := physical_names_distinct resolved rfl
    (fun u hu => (suited u hu).1) (fun u hu => (suited u hu).2.1)
    (fun u hu => (suited u hu).2.2.1) (fun u hu => (suited u hu).2.2.2) distinct physical built
  exact ⟨j, memory', out, resolved, physical, built, names, three, blocks declared, constraints⟩

/-- **An enum may repeat a value**, and so does its block: all that is asked of the models holds,
    but the names of one block are not distinct. -/
theorem roles_repeated :
    ∃ (j : Job) (memory' : Memory) (out : Target.Schema),
      Schema.ofDocument (staffedKennel ["ADMIN", "ADMIN"]) = .ok j.schema ∧
      (staffedKennel ["ADMIN", "ADMIN"]).flattened = false ∧
      (∀ u ∈ modelsOf (staffedKennel ["ADMIN", "ADMIN"]).declarations, u.superTypes.Nodup ∧
        Text.Capitalised u.name ∧ '_' ∉ u.name.toList ∧
        ∀ f ∈ u.fields, ¬ "delegate_aux_".toList <+: f.name.toList) ∧
      (∀ m ∈ j.schema.models, m.fieldNames.Nodup) ∧ j.mode = .physical ∧
      j.build (Memory.ofLength Identifier.standardLength) = (.ok out, memory') ∧
      ∃ block ∈ out.blocks, block.fieldNames = ["ADMIN", "ADMIN"] ∧ ¬ block.fieldNames.Nodup := by
  have builds : (staffedKennel ["ADMIN", "ADMIN"]).buildsTo .physical (fun j out =>
      (j.schema.models.all fun m => decide m.fieldNames.Nodup) &&
        out.blocks.any fun block => block.fieldNames == ["ADMIN", "ADMIN"]) = true := by
    decide +kernel
  obtain ⟨j, out, memory', resolved, physical, built, test⟩ := Document.exists_build builds
  simp only [Bool.and_eq_true, List.all_eq_true, List.any_eq_true, decide_eq_true_eq,
    beq_iff_eq] at test
  obtain ⟨distinct, block, hblock, names⟩ := test
  exact ⟨j, memory', out, resolved, rfl, suited_staffedKennel _, distinct, physical, built, block,
    hblock, names, by rw [names]; decide⟩

end Job

end DelegateSchema
