/-
  DelegateSchema.Proofs.Lineage — the upward walks find exactly the lineage.

  The lineage of a model is the transitive closure of "lists among its super types".  The walks
  of `Schema.Lineage` keep a list of names to see and a list of names seen; each of them is
  described by the paths that start on the first list and avoid the second:

    • `exists_outside_cons` — marking one more name as seen cuts a path at its last visit there,
      so what is found from the name's own super types makes up for the paths that are lost,
    • `exists_path_of_model` — so one step of a walk loses no path,
    • `reaches_iff`, `mem_ancestorsFrom` — from it, by induction on the walk, what is found,
    • `isDescendantOf_iff`, `mem_ancestors`, `mem_descendants` — the walks as the closure,
    • `findUp?_spec` — the delegate that the search for a field answers is in the lineage.
-/
import DelegateSchema.Schema.Lineage
import Mathlib.Data.List.Basic
import Mathlib.Logic.Relation

namespace DelegateSchema.Schema

open Relation

/-! ## §1. Super-type steps -/

/-- The model `name` lists `base` among its super types. -/
def Lists (s : Schema) (name base : String) : Prop :=
  ∃ m, s.model? name = some m ∧ base ∈ m.superTypes

/-- `ancestor` is above the model `name`, at any distance. -/
def Below (s : Schema) (name ancestor : String) : Prop :=
  TransGen s.Lists name ancestor

/-- A super-type step from a name that is not among the visited ones. -/
def ListsOutside (s : Schema) (visited : List String) (name base : String) : Prop :=
  s.Lists name base ∧ name ∉ visited

variable {s : Schema}

theorem lists_iff {name base : String} {m : Model} (h : s.model? name = some m) :
    s.Lists name base ↔ base ∈ m.superTypes := by
  constructor
  · intro ⟨m', h', hb⟩
    rw [h] at h'
    cases h'
    exact hb
  · intro hb
    exact ⟨m, h, hb⟩

theorem below_iff {name ancestor : String} {m : Model} (h : s.model? name = some m) :
    s.Below name ancestor ↔ ∃ base ∈ m.superTypes, ReflTransGen s.Lists base ancestor := by
  unfold Below
  rw [TransGen.head'_iff]
  constructor
  · intro ⟨base, step, rest⟩
    exact ⟨base, (lists_iff h).1 step, rest⟩
  · intro ⟨base, hb, rest⟩
    exact ⟨base, (lists_iff h).2 hb, rest⟩

/-! ## §2. Paths that avoid the visited names -/

theorem outside_nil : s.ListsOutside [] = s.Lists := by
  funext name base
  simp [ListsOutside]

theorem outside_of_cons {visited : List String} {name a b : String}
    (h : ReflTransGen (s.ListsOutside (name :: visited)) a b) :
    ReflTransGen (s.ListsOutside visited) a b := by
  induction h with
  | refl => exact ReflTransGen.refl
  | tail _ step ih => exact ih.tail ⟨step.1, fun h => step.2 (List.mem_cons_of_mem _ h)⟩

/-- No path leaves a visited name. -/
theorem eq_of_outside_of_mem {visited : List String} {a b : String} (ha : a ∈ visited)
    (h : ReflTransGen (s.ListsOutside visited) a b) : a = b := by
  rcases ReflTransGen.cases_head h with same | ⟨_, step, _⟩
  · exact same
  · exact absurd ha step.2

/-- **A path can be cut at its last visit to a name**: what follows starts at one of the super
    types of that name and avoids it. -/
theorem exists_outside_cons {visited : List String} {a b : String} (name : String)
    (h : ReflTransGen (s.ListsOutside visited) a b) :
    ReflTransGen (s.ListsOutside (name :: visited)) a b ∨
      ∃ base, s.Lists name base ∧ ReflTransGen (s.ListsOutside (name :: visited)) base b := by
  induction h using ReflTransGen.head_induction_on with
  | refl => exact Or.inl ReflTransGen.refl
  | @head x y step _ ih =>
    rcases ih with direct | later
    · by_cases here : x = name
      · subst here
        exact Or.inr ⟨y, step.1, direct⟩
      · refine Or.inl (ReflTransGen.head ⟨step.1, ?_⟩ direct)
        intro seen
        rcases List.mem_cons.1 seen with same | old
        · exact here same
        · exact step.2 old
    · exact Or.inr later

/-! ## §3. One step of a walk

A walk takes the first name off the list of names to see.  The name is one seen before, one without
a model, or one whose super types are put on the list in its place; in none of the three cases are
paths to a goal lost, unless the goal is the name itself. -/

section Step

variable {visited todo : List String} {name goal : String}

theorem exists_path_of_visited (seen : name ∈ visited) (other : name ≠ goal) :
    (∃ n ∈ name :: todo, ReflTransGen (s.ListsOutside visited) n goal) ↔
      ∃ n ∈ todo, ReflTransGen (s.ListsOutside visited) n goal := by
  rw [List.exists_mem_cons_iff]
  refine or_iff_right ?_
  intro path
  exact other (eq_of_outside_of_mem seen path)

theorem exists_path_of_missing (missing : s.model? name = none) (other : name ≠ goal) :
    (∃ n ∈ name :: todo, ReflTransGen (s.ListsOutside visited) n goal) ↔
      ∃ n ∈ todo, ReflTransGen (s.ListsOutside visited) n goal := by
  rw [List.exists_mem_cons_iff]
  refine or_iff_right ?_
  intro path
  rcases ReflTransGen.cases_head path with same | ⟨_, ⟨⟨m, found, _⟩, _⟩, _⟩
  · exact other same
  · rw [missing] at found
    cases found

/-- A name without a model has no super types, so it need not be avoided. -/
theorem outside_cons_of_missing (missing : s.model? name = none) :
    s.ListsOutside (name :: visited) = s.ListsOutside visited := by
  funext a b
  have different : s.Lists a b → a ≠ name := by
    intro ⟨m, found, _⟩ same
    rw [same, missing] at found
    cases found
  unfold ListsOutside
  rw [List.mem_cons, not_or, eq_iff_iff]
  exact ⟨fun h => ⟨h.1, h.2.2⟩, fun h => ⟨h.1, different h.1, h.2⟩⟩

theorem exists_path_of_model {m : Model} (found : s.model? name = some m) (new : name ∉ visited)
    (other : name ≠ goal) :
    (∃ n ∈ name :: todo, ReflTransGen (s.ListsOutside visited) n goal) ↔
      (∃ n ∈ m.superTypes, ReflTransGen (s.ListsOutside (name :: visited)) n goal) ∨
        ∃ n ∈ todo, ReflTransGen (s.ListsOutside (name :: visited)) n goal := by
  constructor
  · intro ⟨n, hn, path⟩
    rcases exists_outside_cons name path with avoiding | ⟨base, step, rest⟩
    · rcases List.mem_cons.1 hn with rfl | later
      · exact absurd (eq_of_outside_of_mem List.mem_cons_self avoiding) other
      · exact Or.inr ⟨n, later, avoiding⟩
    · exact Or.inl ⟨base, (lists_iff found).1 step, rest⟩
  · intro paths
    rcases paths with ⟨base, listed, path⟩ | ⟨n, later, path⟩
    · have step : s.ListsOutside visited name base := ⟨(lists_iff found).2 listed, new⟩
      exact ⟨name, List.mem_cons_self, ReflTransGen.head step (outside_of_cons path)⟩
    · exact ⟨n, List.mem_cons_of_mem _ later, outside_of_cons path⟩

end Step

/-! ## §4. Descendants -/

theorem reaches_iff (s : Schema) (ancestor : String) (visited stack : List String) :
    s.reaches ancestor visited stack = true ↔
      ∃ name ∈ stack, ReflTransGen (s.ListsOutside visited) name ancestor := by
  fun_induction reaches s ancestor visited stack with
  | case1 => simp
  | case2 visited stack =>
    simp only [true_iff]
    exact ⟨ancestor, List.mem_cons_self, ReflTransGen.refl⟩
  | case3 visited name stack other seen ih => rw [ih, exists_path_of_visited seen other]
  | case4 visited name stack other new missing ih =>
    rw [ih, outside_cons_of_missing missing, exists_path_of_missing missing other]
  | case5 visited name stack other new m found ih =>
    rw [ih, exists_path_of_model found new other]
    simp only [List.mem_append, List.mem_reverse, or_and_right, exists_or]

/-- **The search for an ancestor finds it exactly when it is above the model.** -/
theorem isDescendantOf_iff {m : Model} (h : s.model? m.name = some m) (ancestor : String) :
    s.isDescendantOf m ancestor = true ↔ s.Below m.name ancestor := by
  unfold isDescendantOf
  rw [reaches_iff, outside_nil, below_iff h]
  simp only [List.mem_reverse]

theorem mem_descendants {m ancestor : Model} (h : s.model? m.name = some m) :
    m ∈ s.descendants ancestor ↔
      m ∈ s.models ∧ m.isAbstract = false ∧ s.Below m.name ancestor.name := by
  unfold descendants
  rw [List.mem_filter, Bool.and_eq_true, isDescendantOf_iff h, Bool.not_eq_true']

/-! ## §5. Ancestors -/

theorem mem_ancestorsFrom (s : Schema) (x : Model) (found : List Model) (queue : List String) :
    x ∈ s.ancestorsFrom found queue ↔
      x ∈ found ∨ s.model? x.name = some x ∧ x.name ∉ found.map (·.name) ∧
        ∃ name ∈ queue, ReflTransGen (s.ListsOutside (found.map (·.name))) name x.name := by
  fun_induction ancestorsFrom s found queue with
  | case1 => simp
  | case2 found name queue known ih =>
    rw [ih]
    refine or_congr_right (and_congr_right fun _ => and_congr_right fun new => ?_)
    have other : name ≠ x.name := by
      intro same
      exact new (same ▸ known)
    exact (exists_path_of_visited known other).symm
  | case3 found name queue known missing ih =>
    rw [ih]
    refine or_congr_right (and_congr_right fun hx => and_congr_right fun _ => ?_)
    have other : name ≠ x.name := by
      intro same
      rw [same, hx] at missing
      cases missing
    exact (exists_path_of_missing missing other).symm
  | case4 found name queue known base hb ih =>
    have base_name : base.name = name := name_of_findModel? hb
    rw [ih, List.map_cons, base_name, List.mem_cons]
    by_cases here : x.name = name
    · -- the walk is at the model itself, which it has not found before
      have isBase : s.model? x.name = some x ↔ x = base := by
        rw [here, hb, Option.some_inj, eq_comm]
      rw [isBase]
      constructor
      · intro h
        rcases h with (same | old) | ⟨_, notHere, _⟩
        · exact Or.inr ⟨same, here ▸ known, name, List.mem_cons_self, here ▸ ReflTransGen.refl⟩
        · exact Or.inl old
        · exact absurd (here ▸ List.mem_cons_self) notHere
      · intro h
        rcases h with old | ⟨same, _⟩
        · exact Or.inl (Or.inr old)
        · exact Or.inl (Or.inl same)
    · have other : x ≠ base := fun same => here (same ▸ base_name)
      rw [exists_path_of_model hb known (Ne.symm here)]
      simp only [other, false_or, List.mem_cons, here, List.mem_append, or_and_right, exists_or]
      rw [or_comm (a := ∃ n ∈ queue, _)]

/-- **The ancestors of a model are the models above it.** -/
theorem mem_ancestors {m : Model} (h : s.model? m.name = some m) (x : Model) :
    x ∈ s.ancestors m ↔ s.model? x.name = some x ∧ s.Below m.name x.name := by
  unfold ancestors
  rw [List.mem_reverse, mem_ancestorsFrom, below_iff h]
  simp [outside_nil]

/-! ## §6. Where a field comes from -/

/-- A field is stored by a delegate exactly when it is inherited and some delegate above the
    model has a field of that name. -/
theorem storingDelegate?_isSome_iff {m : Model} (h : s.model? m.name = some m) (f : Field) :
    (s.storingDelegate? m f).isSome = true ↔
      f.inheritedFrom.isSome = true ∧ ∃ x, s.model? x.name = some x ∧ s.Below m.name x.name ∧
        x.isDelegate = true ∧ (x.field? f.name).isSome = true := by
  unfold storingDelegate?
  split
  next inherited =>
    have nonempty : ∀ l : List Model, l ≠ [] ↔ ∃ x, x ∈ l := fun l =>
      ⟨List.exists_mem_of_ne_nil l, fun ⟨_, h⟩ => List.ne_nil_of_mem h⟩
    rw [List.getLast?_isSome, nonempty]
    simp only [List.mem_filter, mem_ancestors h, Bool.and_eq_true, inherited, true_and, and_assoc]
  next own => simp [own]

theorem ownDelegateField?_spec {fieldName : String} {base base' : Model} {f : Field}
    (h : s.ownDelegateField? fieldName base = some (base', f)) :
    base' = base ∧ base.isDelegate = true ∧ base.field? fieldName = some f := by
  unfold ownDelegateField? at h
  split at h
  next delegate =>
    split at h
    next g hg =>
      split at h
      next => cases h
      next =>
        cases h
        exact ⟨rfl, delegate, hg⟩
    next => cases h
  next => cases h

theorem searchUp_spec (s : Schema) (fieldName : String) (visited todo : List String)
    {base : Model} {f : Field} (h : s.searchUp fieldName visited todo = some (base, f)) :
    base.isDelegate = true ∧ base.field? fieldName = some f ∧ s.model? base.name = some base ∧
      ∃ name ∈ todo, ReflTransGen s.Lists name base.name := by
  fun_induction searchUp s fieldName visited todo with
  | case1 => cases h
  | case2 visited name todo missing ih =>
    obtain ⟨delegate, field, model, n, hn, path⟩ := ih h
    exact ⟨delegate, field, model, n, List.mem_cons_of_mem _ hn, path⟩
  | case3 visited name todo m found seen ih =>
    obtain ⟨delegate, field, model, n, hn, path⟩ := ih h
    exact ⟨delegate, field, model, n, List.mem_cons_of_mem _ hn, path⟩
  | case4 visited name todo m found new answer own =>
    cases h
    obtain ⟨rfl, delegate, field⟩ := ownDelegateField?_spec own
    have model_name := name_of_findModel? found
    exact ⟨delegate, field, model_name ▸ found, name, List.mem_cons_self,
      model_name ▸ ReflTransGen.refl⟩
  | case5 visited name todo m found new none ih =>
    obtain ⟨delegate, field, model, n, hn, path⟩ := ih h
    refine ⟨delegate, field, model, ?_⟩
    rcases List.mem_append.1 hn with above | later
    · exact ⟨name, List.mem_cons_self, ReflTransGen.head ((lists_iff found).2 above) path⟩
    · exact ⟨n, List.mem_cons_of_mem _ later, path⟩

/-- The delegate that the search for a field answers is above the model and has the field. -/
theorem findUp?_spec {m base : Model} {fieldName : String} {f : Field}
    (hm : s.model? m.name = some m) (h : s.findUp? m fieldName = some (base, f)) :
    base.isDelegate = true ∧ base.field? fieldName = some f ∧ s.model? base.name = some base ∧
      s.Below m.name base.name := by
  rw [below_iff hm]
  exact searchUp_spec s fieldName [] m.superTypes h

end DelegateSchema.Schema
