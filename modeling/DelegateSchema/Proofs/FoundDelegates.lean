/-
  DelegateSchema.Proofs.FoundDelegates — which delegate the search up the super types finds.

  The search for the delegate of a field goes up depth first, in the order in which super types are
  listed, and that is also the order in which the merge takes over fields.  So a field that some
  delegate declares leads the search to that delegate, past all models that have the field from it.
  A field that is declared above all delegates is found at the first delegate on the way, although
  the delegates above this one have it as well: the search passes over a delegate for the mark of
  its field only, and the mark names no delegate then.

  Main results:
    * `searchUp_append_of_lacks` — models without the field do not hold the search up,
    * `searchUp_eq_origin` — the search finds the delegate that declares the field,
    * `stored_iff_found` — when the delegate that is found stores the field,
    * `notes_found_below_assets` — where it does not.
-/
import DelegateSchema.Proofs.StoringDelegates

namespace DelegateSchema

open Relation

namespace Schema

variable {s : Schema} {fieldName name : String} {visited todo : List String}

/-! ## §1. Models without the field -/

/-- The model of that name, if there is one, has no such field. -/
def Lacks (s : Schema) (fieldName name : String) : Prop :=
  ∀ x, s.model? name = some x → x.field? fieldName = none

/-- What a model lacks, the models above it lack. -/
theorem Merges.lacks_of_lists {own : Schema} (merges : Merges own s) {base : String}
    (lacks : s.Lacks fieldName name) (step : s.Lists name base) : s.Lacks fieldName base := by
  obtain ⟨m, found, listed⟩ := step
  obtain ⟨b, hb, names⟩ := merges.fieldNames_of_lists (mem_of_findModel? found) listed
  intro x hx
  cases hb.symm.trans hx
  have undeclared := (m.field?_eq_none_iff fieldName).1 (lacks m found)
  exact (b.field?_eq_none_iff fieldName).2 fun has => undeclared (names fieldName has)

theorem searchUp_of_missing (missing : s.model? name = none) :
    s.searchUp fieldName visited (name :: todo) = s.searchUp fieldName visited todo := by
  rw [searchUp]
  split
  next => rfl
  next found => cases missing.symm.trans found

theorem searchUp_of_visited (seen : name ∈ visited) :
    s.searchUp fieldName visited (name :: todo) = s.searchUp fieldName visited todo := by
  rw [searchUp]
  split
  next => rfl
  next => rw [dif_pos seen]

theorem searchUp_of_found {base : Model} (found : s.model? name = some base)
    (new : name ∉ visited) :
    s.searchUp fieldName visited (name :: todo) =
      (s.ownDelegateField? fieldName base).or
        (s.searchUp fieldName (name :: visited) (base.superTypes ++ todo)) := by
  rw [searchUp]
  split
  next missing => cases missing.symm.trans found
  next found' =>
    cases found'.symm.trans found
    rw [dif_neg new]
    cases s.ownDelegateField? fieldName base with
    | none => rfl
    | some answer => rfl

theorem ownDelegateField?_of_lacks {base : Model} (lacks : base.field? fieldName = none) :
    s.ownDelegateField? fieldName base = none := by
  unfold ownDelegateField?
  rw [lacks]
  split
  next => rfl
  next => rfl

/-- **Models without the field do not hold the search up**: it comes past them, and what it has seen
    on the way are models without the field.  The induction is on the walk. -/
theorem searchUp_append_of_lacks {own : Schema} (merges : Merges own s) (visited : List String)
    {bases : List String} (todo : List String) (lacks : ∀ base ∈ bases, s.Lacks fieldName base) :
    ∃ visited', s.searchUp fieldName visited (bases ++ todo) = s.searchUp fieldName visited' todo ∧
      ∀ v ∈ visited', v ∈ visited ∨ s.Lacks fieldName v := by
  -- when the bases are worked off, the search is where it should be
  have stop : ∀ visited all, all = [] ++ todo → ∃ visited',
      s.searchUp fieldName visited all = s.searchUp fieldName visited' todo ∧
        ∀ v ∈ visited', v ∈ visited ∨ s.Lacks fieldName v := by
    rintro visited _ rfl
    exact ⟨visited, rfl, fun _ => Or.inl⟩
  refine searchUp.induct s fieldName
    (fun visited all => ∀ bases, all = bases ++ todo → (∀ base ∈ bases, s.Lacks fieldName base) →
      ∃ visited', s.searchUp fieldName visited all = s.searchUp fieldName visited' todo ∧
        ∀ v ∈ visited', v ∈ visited ∨ s.Lacks fieldName v)
    ?_ ?_ ?_ ?_ ?_ visited _ bases rfl lacks
  all_goals intro visited
  · intro bases same _
    obtain ⟨rfl, isTodo⟩ := List.nil_eq_append_iff.1 same
    exact stop visited _ (by rw [isTodo, List.append_nil])
  all_goals intro name rest
  · intro missing ih bases same lacks
    rcases bases with _ | ⟨base, bases⟩
    · exact stop visited _ same
    · rw [searchUp_of_missing missing]
      exact ih bases (List.cons.inj same).2 fun b hb => lacks b (List.mem_cons_of_mem _ hb)
  · intro m found seen ih bases same lacks
    rcases bases with _ | ⟨base, bases⟩
    · exact stop visited _ same
    · rw [searchUp_of_visited seen]
      exact ih bases (List.cons.inj same).2 fun b hb => lacks b (List.mem_cons_of_mem _ hb)
  · intro m found new answer isAnswer bases same lacks
    rcases bases with _ | ⟨base, bases⟩
    · exact stop visited _ same
    · obtain ⟨rfl, _⟩ := List.cons.inj same
      rw [ownDelegateField?_of_lacks (lacks name List.mem_cons_self m found)] at isAnswer
      cases isAnswer
  · intro m found new isNone ih bases same lacks
    rcases bases with _ | ⟨base, bases⟩
    · exact stop visited _ same
    · obtain ⟨rfl, isRest⟩ : name = base ∧ rest = bases ++ todo := List.cons.inj same
      have here := lacks name List.mem_cons_self
      have above : ∀ b ∈ m.superTypes ++ bases, s.Lacks fieldName b := by
        intro b hb
        rcases List.mem_append.1 hb with listed | later
        · exact merges.lacks_of_lists here ⟨m, found, listed⟩
        · exact lacks b (List.mem_cons_of_mem _ later)
      obtain ⟨visited', goesOn, seen⟩ := ih _ (by rw [isRest, List.append_assoc]) above
      refine ⟨visited', ?_, ?_⟩
      · rw [searchUp_of_found found new, isNone, Option.none_or]
        exact goesOn
      · intro v hv
        rcases seen v hv with earlier | lacking
        · rcases List.mem_cons.1 earlier with rfl | before
          · exact Or.inr here
          · exact Or.inl before
        · exact Or.inr lacking

end Schema

/-! ## §2. The delegate that declares the field -/

theorem names_of_found {s : Schema} {names : List String} {bases : List Model}
    (found : List.Forall₂ (fun name base => s.model? name = some base) names bases) :
    names = bases.map (·.name) := by
  induction found with
  | nil => rfl
  | cons first _ ih => rw [List.map_cons, ← ih, name_of_findModel? first]

section Documents

variable {d : Document} {s : Schema} (resolved : Schema.ofDocument d = .ok s)
  (plain : d.flattened = false)
  (unmarked : ∀ m ∈ modelsOf d.declarations, ∀ f ∈ m.fields, f.inheritedFrom = none)
include resolved plain unmarked

/-- A marked field comes from the first super type that has a field of its name. -/
theorem exists_first_base {x : Model} (hx : x ∈ s.models) {name : String} {g : Field}
    (hg : x.field? name = some g) (marked : g.inheritedFrom.isSome = true) :
    ∃ before b after, x.superTypes = before ++ b.name :: after ∧
      (∀ base ∈ before, s.Lacks name base) ∧ s.model? b.name = some b ∧
      ∃ h, b.field? name = some h ∧ g = h.inheritedVia b.name := by
  obtain ⟨c, hc, u, bases, resolves, found, rfl⟩ := Schema.exists_declared resolved plain hx
  rw [field?_withInherited] at hg
  cases declared : u.field? name with
  | some f =>
    -- the own fields of a model are unmarked
    rw [declared, Option.some_or] at hg
    cases hg
    obtain ⟨f', hf', _, _, rfl⟩ := forall₂_exists_left resolves.fields (Model.mem_of_field? declared)
    rw [show _ = none from unmarked c hc f' hf'] at marked
    cases marked
  | none =>
    rw [declared, Option.none_or] at hg
    obtain ⟨before, b, after, split, isField, nowhere⟩ := List.findSome?_eq_some_iff.1 hg
    obtain ⟨h, hb, rfl⟩ := Option.map_eq_some_iff.1 isField
    have isModel : ∀ base ∈ bases, s.model? base.name = some base := by
      intro base hbase
      obtain ⟨baseName, _, isBase⟩ := forall₂_exists_left found hbase
      rw [name_of_findModel? isBase]
      exact isBase
    refine ⟨before.map (·.name), b, after.map (·.name), ?_, ?_, isModel b (by simp [split]), h, hb,
      rfl⟩
    · show u.superTypes = _
      rw [names_of_found found, split, List.map_append, List.map_cons]
    · intro base hbase y hy
      obtain ⟨a, ha, rfl⟩ := List.mem_map.1 hbase
      have absent := Option.map_eq_none_iff.1 (nowhere a ha)
      rw [isModel a (by simp [split, ha])] at hy
      cases hy
      exact absent

/-- **The search finds the delegate that declares the field.**  The induction goes up the super
    types, along the way on which the merge has handed the field down. -/
theorem searchUp_eq_origin {x : Model} (isX : s.model? x.name = some x) {name : String} {g : Field}
    (hg : x.field? name = some g) {origin : Model} (isOrigin : s.model? origin.name = some origin)
    (marked : g.inheritedFrom = some origin.name) (delegate : origin.isDelegate = true)
    (visited todo : List String)
    (fresh : ∀ v ∈ visited, s.Lacks name v ∨ ReflTransGen s.Lists v x.name) :
    ∃ h, origin.field? name = some h ∧
      s.searchUp name visited (x.superTypes ++ todo) = some (origin, h) := by
  obtain ⟨own, _, merges⟩ := Schema.merges_of_ofDocument resolved plain
  generalize isName : x.name = start at *
  induction start using merges.grounded.induction generalizing x g visited todo with
  | h start ih =>
    obtain ⟨before, b, after, superTypes, lacks, isB, h, hb, rfl⟩ :=
      exists_first_base resolved plain unmarked (mem_of_findModel? isX) hg (by rw [marked]; rfl)
    have step : s.Lists start b.name := ⟨x, isX, by rw [superTypes]; simp⟩
    rw [superTypes, List.append_assoc, List.cons_append]
    obtain ⟨visited', goesOn, seen⟩ :=
      Schema.searchUp_append_of_lacks merges visited (b.name :: (after ++ todo)) lacks
    have fresh' : ∀ v ∈ visited', s.Lacks name v ∨ ReflTransGen s.Lists v start := by
      intro v hv
      rcases seen v hv with earlier | lacking
      · exact fresh v earlier
      · exact Or.inl lacking
    have new : b.name ∉ visited' := by
      intro again
      rcases fresh' b.name again with lacking | below
      · rw [lacking b isB] at hb
        cases hb
      · exact merges.not_below_self b.name (TransGen.tail' below step)
    rw [goesOn, Schema.searchUp_of_found isB new]
    have handed : h.inheritedFrom.or (some b.name) = some origin.name := marked
    cases mark : h.inheritedFrom with
    | none =>
      -- the super type declares the field itself, so it is the origin
      rw [mark, Option.none_or] at handed
      have isB' : b = origin := by
        rw [Option.some.inj handed, isOrigin] at isB
        exact (Option.some.inj isB).symm
      subst isB'
      refine ⟨h, hb, ?_⟩
      rw [Schema.ownDelegateField?_eq_some_iff.2
        ⟨rfl, delegate, hb, Schema.isFromDelegate_of_unmarked mark⟩]
      rfl
    | some top =>
      -- the super type has the field from the origin as well, and is passed over
      rw [mark, Option.some_or] at handed
      have fromOrigin : h.inheritedFrom = some origin.name := mark.trans handed
      have passed : s.ownDelegateField? name b = none := by
        rw [Option.eq_none_iff_forall_ne_some]
        intro ⟨base, f⟩ answer
        obtain ⟨_, _, hf, fromNoDelegate⟩ := Schema.ownDelegateField?_eq_some_iff.1 answer
        cases hb.symm.trans hf
        rw [Schema.isFromDelegate_of_marked isOrigin fromOrigin, delegate] at fromNoDelegate
        cases fromNoDelegate
      rw [passed, Option.none_or]
      refine ih b.name step hb fromOrigin (b.name :: visited') (after ++ todo) rfl isB ?_
      intro v hv
      rcases List.mem_cons.1 hv with rfl | earlier
      · exact Or.inr ReflTransGen.refl
      · exact (fresh' v earlier).imp_right fun below => below.tail step

end Documents

/-! ## §3. The delegate that is found -/

/-- **When the delegate that is found stores the field.**  Take a document that resolves, and whose
    own fields carry no marks, and an inherited field `f` of a model `m`.

    Some delegate stores the field exactly when the search up the super types finds one for its
    name.  What it finds is a delegate above `m` with its field of that name.  This field is not
    inherited from a delegate exactly when the model that is found declares it, or when no delegate
    above has a field of that name; in any case the model that is found, or a delegate above it,
    stores the field.  If a delegate declares `f`, the search finds that delegate, and the field is
    stored there. -/
theorem stored_iff_found {d : Document} {s : Schema} (resolved : Schema.ofDocument d = .ok s)
    (plain : d.flattened = false)
    (unmarked : ∀ m ∈ modelsOf d.declarations, ∀ f ∈ m.fields, f.inheritedFrom = none)
    {m : Model} (hm : m ∈ s.models) {f : Field} (hf : f ∈ m.fields)
    (inherited : f.inheritedFrom.isSome = true) :
    ((s.storingDelegate? m f).isSome = true ↔ (s.findUp? m f.name).isSome = true) ∧
    (∀ base g, s.findUp? m f.name = some (base, g) →
      base ∈ s.ancestors m ∧ base.isDelegate = true ∧ base.field? f.name = some g ∧
      (s.storingDelegate? base g = none ↔ d.Declares base.name f.name ∨
        ∀ y ∈ s.ancestors base, y.isDelegate = true → y.field? f.name = none) ∧
      ∃ keeper, (keeper = base ∨ keeper ∈ s.ancestors base) ∧ keeper.isDelegate = true ∧
        s.Keeps keeper f.name) ∧
    ∀ origin ∈ s.models, f.inheritedFrom = some origin.name → origin.isDelegate = true →
      ∃ g, s.findUp? m f.name = some (origin, g) ∧ s.storingDelegate? origin g = none := by
  obtain ⟨own, _, merges⟩ := Schema.merges_of_ofDocument resolved plain
  have isModel := Schema.model?_of_mem merges.modelNames_nodup hm
  refine ⟨isSome_storingDelegate?_iff_findUp? resolved plain unmarked isModel inherited, ?_, ?_⟩
  · intro base g found
    obtain ⟨delegate, hg, isBase, below⟩ := Schema.findUp?_spec isModel found
    have named : g.name = f.name := Model.name_of_field? hg
    have declares := unmarked_iff_declares resolved plain unmarked (mem_of_findModel? isBase)
      (Model.mem_of_field? hg)
    refine ⟨(Schema.mem_ancestors isModel base).2 ⟨isBase, below⟩, delegate, hg, ?_,
      Schema.exists_keeper merges isBase delegate (by rw [hg]; rfl)⟩
    rw [Schema.storingDelegate?_eq_none_iff, declares, named]
  · intro origin horigin marked delegate
    have isOrigin := Schema.model?_of_mem merges.modelNames_nodup horigin
    have hasField := field?_of_marked resolved plain unmarked hm hf inherited
    obtain ⟨g, hg, found⟩ := searchUp_eq_origin resolved plain unmarked isModel hasField isOrigin
      marked delegate [] [] (by simp)
    rw [List.append_nil] at found
    refine ⟨g, found, ?_⟩
    rw [Schema.storingDelegate?_eq_none_iff]
    -- the mark of a field leads to a model that declares it
    rcases exists_origin resolved plain unmarked isModel hasField with
      own | ⟨origin', horigin', marked', g', hg', own⟩
    · rw [own] at marked
      cases marked
    · obtain ⟨isOrigin', _⟩ := (Schema.mem_ancestors isModel origin').1 horigin'
      rw [← Option.some.inj (marked.symm.trans marked'), isOrigin] at isOrigin'
      cases isOrigin'
      rw [hg] at hg'
      cases hg'
      exact Or.inl own

/-- Mixes are clips and stills; clips are media, and media and stills are assets, which have a
    note as all records do. -/
def archive : Document where
  declarations := [
    .model {
      name := "Record"
      isAbstract := true
      fields := [{ name := "note", type := { scalar := some "String" } }] },
    .model {
      name := "Dated"
      isAbstract := true
      fields := [{ name := "day", type := { scalar := some "DateTime" } }] },
    .model {
      name := "Asset"
      isDelegate := true
      fields := [{ name := "title", type := { scalar := some "String" } }]
      superTypes := ["Record"] },
    .model { name := "Media", isDelegate := true, superTypes := ["Asset"] },
    .model { name := "Clip", superTypes := ["Media", "Dated"] },
    .model { name := "Still", superTypes := ["Asset"] },
    .model { name := "Mix", superTypes := ["Clip", "Still"] }]

theorem unmarked_archive :
    ∀ m ∈ modelsOf archive.declarations, ∀ f ∈ m.fields, f.inheritedFrom = none := by
  decide

/-- For the fields of mixes there is a delegate that stores them where the search finds one.  Assets
    declare the title, so it is found there, past the media, and stored there. -/
theorem mix_stored_iff_found :
    ∃ (s : Schema) (mix : Model), Schema.ofDocument archive = .ok s ∧
      s.model? "Mix" = some mix ∧
      mix.fields.map (fun f => (f.name, (s.storingDelegate? mix f).map (·.name),
        (s.findUp? mix f.name).map (·.1.name))) =
        [("note", some "Asset", some "Media"), ("title", some "Asset", some "Asset"),
          ("day", none, none)] ∧
      (∀ f ∈ mix.fields, f.inheritedFrom.isSome = true ∧
        ((s.storingDelegate? mix f).isSome = true ↔ (s.findUp? mix f.name).isSome = true) ∧
        ∀ base g, s.findUp? mix f.name = some (base, g) →
          base ∈ s.ancestors mix ∧ base.isDelegate = true ∧ base.field? f.name = some g ∧
          (s.storingDelegate? base g = none ↔ archive.Declares base.name f.name ∨
            ∀ y ∈ s.ancestors base, y.isDelegate = true → y.field? f.name = none)) ∧
      ∃ title ∈ mix.fields, ∃ asset g, title.name = "title" ∧ asset.name = "Asset" ∧
        s.findUp? mix title.name = some (asset, g) ∧ s.storingDelegate? asset g = none := by
  have resolves : (Schema.ofDocument archive).toOption.any (fun s =>
      (s.model? "Mix").any fun mix =>
        mix.fields.map (fun f => (f.name, (s.storingDelegate? mix f).map (·.name),
          (s.findUp? mix f.name).map (·.1.name))) ==
          [("note", some "Asset", some "Media"), ("title", some "Asset", some "Asset"),
            ("day", none, none)] &&
        mix.fields.all (·.inheritedFrom.isSome) &&
        mix.fields.any fun title => title.name == "title" && s.models.any fun asset =>
          asset.name == "Asset" && title.inheritedFrom == some asset.name &&
            asset.isDelegate) = true := by
    decide +kernel
  simp only [Option.any_eq_true, Bool.and_eq_true, beq_iff_eq, List.all_eq_true,
    List.any_eq_true] at resolves
  obtain ⟨s, resolved, mix, isModel, ⟨answers, inherited⟩, title, htitle, isTitle, asset, hasset,
    ⟨isAsset, marked⟩, delegate⟩ := resolves
  have resolved := eq_ok_of_toOption resolved
  refine ⟨s, mix, resolved, isModel, answers, ?_, ?_⟩
  · intro f hf
    obtain ⟨agree, answered, _⟩ := stored_iff_found resolved rfl unmarked_archive
      (mem_of_findModel? isModel) hf (inherited f hf)
    refine ⟨inherited f hf, agree, ?_⟩
    intro base g found
    obtain ⟨above, delegate, field, exactly, _⟩ := answered base g found
    exact ⟨above, delegate, field, exactly⟩
  · obtain ⟨_, _, declared⟩ := stored_iff_found resolved rfl unmarked_archive
      (mem_of_findModel? isModel) htitle (inherited title htitle)
    obtain ⟨g, found, stored⟩ := declared asset hasset marked delegate
    exact ⟨title, htitle, asset, g, isTitle, isAsset, found, stored⟩

/-- **The delegate that is found need not store the field**: the note of a mix is found at the
    media, because records have declared it, which are no delegate; but the media have it from the
    assets, which are one and store it. -/
theorem notes_found_below_assets :
    ∃ s, Schema.ofDocument archive = .ok s ∧ archive.flattened = false ∧
      (∀ m ∈ modelsOf archive.declarations, ∀ f ∈ m.fields, f.inheritedFrom = none) ∧
      ∃ mix ∈ s.models, ∃ note ∈ mix.fields, ∃ media g asset, mix.name = "Mix" ∧
        note.name = "note" ∧ note.inheritedFrom.isSome = true ∧
        s.findUp? mix note.name = some (media, g) ∧
        media.name = "Media" ∧ s.storingDelegate? media g = some asset ∧ asset.name = "Asset" := by
  have resolves : (Schema.ofDocument archive).toOption.any (fun s =>
      s.models.any fun mix => mix.name == "Mix" && mix.fields.any fun note =>
        note.name == "note" && note.inheritedFrom.isSome &&
        (s.findUp? mix note.name).any fun found => found.1.name == "Media" &&
          (s.storingDelegate? found.1 found.2).any (·.name == "Asset")) = true := by
    decide +kernel
  simp only [Option.any_eq_true, Bool.and_eq_true, beq_iff_eq, List.any_eq_true] at resolves
  obtain ⟨s, resolved, mix, hmix, isMix, note, hnote, ⟨isNote, inherited⟩, ⟨media, g⟩, found,
    isMedia, asset, stored, isAsset⟩ := resolves
  exact ⟨s, eq_ok_of_toOption resolved, rfl, unmarked_archive, mix, hmix, note, hnote, media, g,
    asset, isMix, isNote, inherited, found, isMedia, stored, isAsset⟩

end DelegateSchema
