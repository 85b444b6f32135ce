/-
  DelegateSchema.Proofs.StoredFields — the two searches for the delegate of a field agree.

  An inherited field is left alone by widening when some delegate above stores it, and its relation
  is named after a delegate that the search up the super types finds.  The first question is asked
  of all ancestors at once; the second search passes over the delegates whose field a higher delegate
  has declared, and stops at the first other one.  It misses none: the delegate that has declared
  the field is not passed over.

  Main results:
    * `isSome_searchUp_iff` — the search finds a delegate of its kind wherever there is one,
    * `exists_origin` — the mark of a field leads to a model above that declares it,
    * `isSome_storingDelegate?_iff_findUp?` — both searches see the same fields.
-/
import DelegateSchema.Proofs.MergedFields

namespace DelegateSchema

open Relation

/-! ## §1. The search up the super types -/

namespace Schema

variable {s : Schema} {fieldName : String}

theorem ownDelegateField?_eq_some_iff {base base' : Model} {f : Field} :
    s.ownDelegateField? fieldName base = some (base', f) ↔
      base' = base ∧ base.isDelegate = true ∧ base.field? fieldName = some f ∧
        s.isFromDelegate f = false := by
  constructor
  · intro h
    obtain ⟨rfl, delegate, field⟩ := ownDelegateField?_spec h
    refine ⟨rfl, delegate, field, ?_⟩
    cases higher : s.isFromDelegate f with
    | false => rfl
    | true => simp [ownDelegateField?, delegate, field, higher] at h
  · rintro ⟨rfl, delegate, field, own⟩
    simp [ownDelegateField?, delegate, field, own]

theorem isFromDelegate_of_unmarked {f : Field} (unmarked : f.inheritedFrom = none) :
    s.isFromDelegate f = false := by
  rw [isFromDelegate, unmarked]
  rfl

/-- A field is from a delegate exactly when the model that its mark names is one. -/
theorem isFromDelegate_of_marked {f : Field} {origin : Model}
    (isModel : s.model? origin.name = some origin)
    (marked : f.inheritedFrom = some origin.name) : s.isFromDelegate f = origin.isDelegate := by
  rw [isFromDelegate, marked, Option.bind_some, isModel]
  rfl

/-- **The search misses nothing**: it finds a delegate of its kind wherever a path from the names
    to see leads to one, off the names seen.  The induction is on the walk. -/
theorem isSome_searchUp_iff (s : Schema) (fieldName : String) (visited todo : List String) :
    (s.searchUp fieldName visited todo).isSome = true ↔
      ∃ x, s.model? x.name = some x ∧ (s.ownDelegateField? fieldName x).isSome = true ∧
        x.name ∉ visited ∧
        ∃ name ∈ todo, ReflTransGen (s.ListsOutside visited) name x.name := by
  fun_induction searchUp s fieldName visited todo with
  | case1 => simp
  | case2 visited name todo missing ih =>
    rw [ih]
    refine exists_congr fun x => and_congr_right fun isModel => ?_
    refine and_congr_right fun _ => and_congr_right fun _ => ?_
    have other : name ≠ x.name := by
      intro same
      rw [same, isModel] at missing
      cases missing
    exact (exists_path_of_missing missing other).symm
  | case3 visited name todo m found seen ih =>
    rw [ih]
    refine exists_congr fun x => and_congr_right fun _ => ?_
    refine and_congr_right fun _ => and_congr_right fun new => ?_
    have other : name ≠ x.name := by
      intro same
      exact new (same ▸ seen)
    exact (exists_path_of_visited seen other).symm
  | case4 visited name todo m found new answer own =>
    refine iff_of_true rfl ⟨m, ?_, by rw [own]; rfl, ?_, name, List.mem_cons_self, ?_⟩
    all_goals rw [name_of_findModel? found]
    · exact found
    · exact new
  | case5 visited name todo m found new none ih =>
    rw [ih]
    refine exists_congr fun x => and_congr_right fun isModel => and_congr_right fun own => ?_
    -- the model at hand is not what the search is for
    have other : name ≠ x.name := by
      intro same
      rw [same, isModel] at found
      cases found
      rw [none] at own
      cases own
    rw [exists_path_of_model found new other]
    simp only [List.mem_cons, not_or, Ne.symm other, not_false_eq_true, true_and, List.mem_append,
      or_and_right, exists_or]

/-- The search from a model finds a delegate exactly when one of its ancestors is of that kind. -/
theorem isSome_findUp?_iff {m : Model} (h : s.model? m.name = some m) :
    (s.findUp? m fieldName).isSome = true ↔
      ∃ x ∈ s.ancestors m, (s.ownDelegateField? fieldName x).isSome = true := by
  unfold findUp?
  rw [isSome_searchUp_iff]
  simp only [outside_nil, List.not_mem_nil, not_false_eq_true, true_and, mem_ancestors h,
    below_iff h]
  exact exists_congr fun x => by tauto

end Schema

/-! ## §2. Where a field was declared -/

theorem lookUp?_eq_some {models : List Model} {name : String} {path : List String} {model : String}
    {found : Model × Field} (h : lookUp? models name path model = some found) :
    found.1 ∈ models ∧ found.1.field? name = some found.2 := by
  fun_induction lookUp? models name path model with
  | case1 => cases h
  | case2 => cases h
  | case3 path model new m isModel f declared =>
    cases h
    exact ⟨mem_of_findModel? isModel, declared⟩
  | case4 path model new m isModel undeclared ih =>
    obtain ⟨base, _, found⟩ := List.exists_of_findSome?_eq_some h
    exact ih base found

section Documents

variable {d : Document} {s : Schema} (resolved : Schema.ofDocument d = .ok s)
  (plain : d.flattened = false)
  (unmarked : ∀ m ∈ modelsOf d.declarations, ∀ f ∈ m.fields, f.inheritedFrom = none)
include resolved plain unmarked

/-- A field that a model declares itself has no mark after the merge. -/
theorem exists_unmarked {c : Model} (hc : c ∈ modelsOf d.declarations) {name : String} {f : Field}
    (declared : c.field? name = some f) :
    ∃ m, s.model? c.name = some m ∧ ∃ g, m.field? name = some g ∧ g.inheritedFrom = none := by
  obtain ⟨_, _, _, _, isModel⟩ := Schema.exists_merged resolved plain hc
  have found : d.lookUp? c.name name = some (c, f) := by
    rw [Document.lookUp?_eq resolved plain hc, declared]
    rfl
  obtain ⟨g, hg, inherits, _⟩ :=
    rel_exists_right (inheritsFrom_lookUp? resolved plain unmarked hc isModel name) found
  refine ⟨_, isModel, g, hg, ?_⟩
  rw [inherits.origin, if_pos rfl]

/-- **The mark of a field leads to the model that declares it**: a model above, which has the field
    of that name without a mark. -/
theorem exists_origin {x : Model} (hx : s.model? x.name = some x) {name : String} {g : Field}
    (hg : x.field? name = some g) :
    g.inheritedFrom = none ∨ ∃ origin ∈ s.ancestors x, g.inheritedFrom = some origin.name ∧
      ∃ f, origin.field? name = some f ∧ f.inheritedFrom = none := by
  have known := Schema.name_mem_of_model? hx
  rw [Schema.modelNames_eq_declared resolved plain] at known
  obtain ⟨c, hc, named⟩ := List.mem_map.1 known
  have agrees := inheritsFrom_lookUp? resolved plain unmarked hc (named ▸ hx) name
  rw [hg, named] at agrees
  -- the field comes from where the search of the document finds it
  obtain ⟨found, isFound⟩ := Option.isSome_iff_exists.1 (rel_isSome agrees)
  obtain ⟨_, same, inherits, path⟩ := rel_exists_right agrees isFound
  cases same
  by_cases own : found.1.name = x.name
  · exact Or.inl (by rw [inherits.origin, if_pos own])
  · obtain ⟨hdeclared, declares⟩ := lookUp?_eq_some isFound
    obtain ⟨origin, isModel, f, hf, unmarked⟩ :=
      exists_unmarked resolved plain unmarked hdeclared declares
    have isOrigin : origin.name = found.1.name := name_of_findModel? isModel
    have above : s.Below x.name origin.name := by
      rw [isOrigin]
      exact (reflTransGen_iff_eq_or_transGen.1 path).resolve_left own
    refine Or.inr ⟨origin, (Schema.mem_ancestors hx origin).2 ⟨isOrigin ▸ isModel, above⟩, ?_, f, hf,
      unmarked⟩
    rw [inherits.origin, if_neg own, isOrigin]

/-- A delegate that has a field has it from no higher delegate, or one of its ancestors does. -/
theorem exists_own_delegateField {m x : Model} (hm : s.model? m.name = some m)
    (hx : x ∈ s.ancestors m) (delegate : x.isDelegate = true) {name : String}
    (has : (x.field? name).isSome = true) :
    ∃ y ∈ s.ancestors m, (s.ownDelegateField? name y).isSome = true := by
  obtain ⟨isModel, below⟩ := (Schema.mem_ancestors hm x).1 hx
  obtain ⟨g, hg⟩ := Option.isSome_iff_exists.1 has
  have answers : ∀ {y : Model} {f : Field}, y.isDelegate = true → y.field? name = some f →
      s.isFromDelegate f = false → (s.ownDelegateField? name y).isSome = true := by
    intro y f delegate hf own
    rw [Schema.ownDelegateField?_eq_some_iff.2 ⟨rfl, delegate, hf, own⟩]
    rfl
  cases higher : s.isFromDelegate g with
  | false => exact ⟨x, hx, answers delegate hg higher⟩
  | true =>
    rcases exists_origin resolved plain unmarked isModel hg with
      own | ⟨origin, horigin, marked, f, hf, own⟩
    · rw [Schema.isFromDelegate_of_unmarked own] at higher
      cases higher
    · -- the mark names a delegate further up, and that one declares the field
      obtain ⟨isOrigin, above⟩ := (Schema.mem_ancestors isModel origin).1 horigin
      rw [Schema.isFromDelegate_of_marked isOrigin marked] at higher
      exact ⟨origin, (Schema.mem_ancestors hm origin).2 ⟨isOrigin, below.trans above⟩,
        answers higher hf (Schema.isFromDelegate_of_unmarked own)⟩

/-- **The two searches for the delegate of a field see the same fields.** -/
theorem isSome_storingDelegate?_iff_findUp? {m : Model} (hm : s.model? m.name = some m) {f : Field}
    (inherited : f.inheritedFrom.isSome = true) :
    (s.storingDelegate? m f).isSome = true ↔ (s.findUp? m f.name).isSome = true := by
  rw [Schema.storingDelegate?_isSome_iff hm, Schema.isSome_findUp?_iff hm]
  constructor
  · intro ⟨_, x, isX, below, delegate, has⟩
    exact exists_own_delegateField resolved plain unmarked hm
      ((Schema.mem_ancestors hm x).2 ⟨isX, below⟩) delegate has
  · intro ⟨x, hx, answers⟩
    obtain ⟨⟨_, g⟩, answer⟩ := Option.isSome_iff_exists.1 answers
    obtain ⟨_, delegate, hg, _⟩ := Schema.ownDelegateField?_eq_some_iff.1 answer
    obtain ⟨isX, below⟩ := (Schema.mem_ancestors hm x).1 hx
    exact ⟨inherited, x, isX, below, delegate, by rw [hg]; rfl⟩

end Documents

end DelegateSchema
