/-
  DelegateSchema.Proofs.Aliases — where aliases lead.

  An attribute that is declared as an alias stands for its target, which may be an alias again.
  The walk along the aliases leaves a trail of names; every name of the trail leads on to where the
  walk is, so a name met again lies on a circle, and from a circle no walk gets to an end.

  Main result: `canonical_eq_some_iff` — a name stands for the declaration that its aliases lead
  to, and for none else.
-/
import DelegateSchema.Proofs.Identifiers
import DelegateSchema.Registry.Basic
import Mathlib.Logic.Relation

namespace DelegateSchema.Registry

open Relation

variable {r : Registry}

/-! ## §1. Chains of aliases -/

theorem name_of_get? {name : String} {decl : AttributeDecl} (h : r.get? name = some decl) :
    decl.name = name := by
  simpa using List.find?_some h

/-- The attribute `name` is declared as another name for `target`. -/
def AliasOf (r : Registry) (name target : String) : Prop :=
  ∃ decl, r.get? name = some decl ∧ decl.aliasOf = some target

/-- The aliases lead from `name` to the declaration `decl`, which is in force and no alias. -/
structure LeadsTo (r : Registry) (name : String) (decl : AttributeDecl) : Prop where
  chain : ReflTransGen r.AliasOf name decl.name
  inForce : r.get? decl.name = some decl
  ends : decl.aliasOf = none

theorem aliasOf_unique {name target target' : String} (h : r.AliasOf name target)
    (h' : r.AliasOf name target') : target = target' := by
  obtain ⟨decl, found, isAlias⟩ := h
  obtain ⟨decl', found', isAlias'⟩ := h'
  rw [found] at found'
  cases found'
  exact Option.some.inj (isAlias.symm.trans isAlias')

theorem LeadsTo.not_aliasOf {name target : String} {decl : AttributeDecl}
    (h : r.LeadsTo name decl) : ¬ r.AliasOf decl.name target := by
  intro ⟨decl', found, isAlias⟩
  rw [h.inForce] at found
  cases found
  rw [h.ends] at isAlias
  cases isAlias

/-- A chain that ends runs in no circle. -/
theorem LeadsTo.not_circle {name : String} {decl : AttributeDecl} (h : r.LeadsTo name decl) :
    ¬ TransGen r.AliasOf name name := by
  have final : ∀ target, ¬ r.AliasOf decl.name target := fun _ => h.not_aliasOf
  have chain := h.chain
  clear h
  induction chain using ReflTransGen.head_induction_on with
  | refl =>
    intro circle
    obtain ⟨target, step, _⟩ := TransGen.head'_iff.1 circle
    exact final target step
  | @head name next step _ ih =>
    -- the circle starts with the same step, so it goes through the next name as well
    intro circle
    obtain ⟨next', step', back⟩ := TransGen.head'_iff.1 circle
    rw [← aliasOf_unique step step'] at back
    exact ih (TransGen.tail' back step)

/-- A chain that ends goes on from the target of an alias. -/
theorem LeadsTo.of_alias {name target : String} {decl : AttributeDecl} (h : r.LeadsTo name decl)
    (step : r.AliasOf name target) : r.LeadsTo target decl := by
  rcases ReflTransGen.cases_head h.chain with here | ⟨target', step', rest⟩
  · rw [here] at step
    exact absurd step h.not_aliasOf
  · rw [aliasOf_unique step step']
    exact ⟨rest, h.inForce, h.ends⟩

/-! ## §2. The walk -/

variable {origin : String} {visited : List String} {decl final : AttributeDecl}

/-- Where the walk ends, the aliases lead. -/
theorem leadsTo_of_follow {declared : decl.name ∈ r.names}
    (inForce : r.get? decl.name = some decl)
    (h : r.follow origin visited decl declared = .ok final) : r.LeadsTo decl.name final := by
  fun_induction follow r origin visited decl declared with
  | case1 visited decl declared ends =>
    cases h
    exact ⟨ReflTransGen.refl, inForce, ends⟩
  | case2 => cases h
  | case3 => cases h
  | case4 visited decl declared target isAlias seen next found ih =>
    have isNext : next.name = target := name_of_get? found
    have rest := ih (isNext ▸ found) h
    rw [isNext] at rest
    exact ⟨ReflTransGen.head ⟨decl, inForce, isAlias⟩ rest.chain, rest.inForce, rest.ends⟩

/-- Where the aliases lead, the walk ends: it meets no name of its trail again, and no name that
    is not declared. -/
theorem follow_of_leadsTo {declared : decl.name ∈ r.names}
    (inForce : r.get? decl.name = some decl)
    (trail : ∀ name ∈ visited, TransGen r.AliasOf name decl.name)
    (leads : r.LeadsTo decl.name final) :
    r.follow origin visited decl declared = .ok final := by
  fun_induction follow r origin visited decl declared with
  | case1 visited decl declared ends =>
    rcases ReflTransGen.cases_head leads.chain with here | ⟨target, ⟨decl', found, isAlias⟩, _⟩
    · have same := leads.inForce
      rw [← here, inForce] at same
      exact congrArg Except.ok (Option.some.inj same)
    · rw [inForce] at found
      cases found
      rw [ends] at isAlias
      cases isAlias
  | case2 visited decl declared target isAlias seen =>
    exact absurd (trail decl.name seen) leads.not_circle
  | case3 visited decl declared target isAlias seen missing =>
    have rest := leads.of_alias ⟨decl, inForce, isAlias⟩
    rcases ReflTransGen.cases_head rest.chain with here | ⟨_, ⟨decl', found, _⟩, _⟩
    · have found := rest.inForce
      rw [← here, missing] at found
      cases found
    · rw [missing] at found
      cases found
  | case4 visited decl declared target isAlias seen next found ih =>
    have isNext : next.name = target := name_of_get? found
    have step : r.AliasOf decl.name target := ⟨decl, inForce, isAlias⟩
    rw [isNext] at ih
    refine ih found ?_ (leads.of_alias step)
    intro name hname
    rcases List.mem_cons.1 hname with rfl | old
    · exact TransGen.single step
    · exact (trail name old).tail step

/-! ## §3. Canonical declarations -/

theorem canonical_of_get? {name : String} (found : r.get? name = some decl) :
    r.canonical name = (r.follow name [] decl (name_mem_of_get? found)).map some := by
  unfold canonical
  split
  next missing =>
    rw [found] at missing
    cases missing
  next decl' found' =>
    rw [found] at found'
    cases found'
    rfl

theorem canonical_of_missing {name : String} (missing : r.get? name = none) :
    r.canonical name = .ok none := by
  unfold canonical
  split
  next => rfl
  next found =>
    rw [missing] at found
    cases found

/-- **A name stands for the declaration that its aliases lead to.** -/
theorem canonical_eq_some_iff {name : String} :
    r.canonical name = .ok (some final) ↔ r.LeadsTo name final := by
  constructor
  · intro h
    cases found : r.get? name with
    | none =>
      rw [canonical_of_missing found] at h
      cases h
    | some decl =>
      rw [canonical_of_get? found] at h
      have isName : decl.name = name := name_of_get? found
      cases walk : r.follow name [] decl (name_mem_of_get? found) with
      | error fault =>
        rw [walk] at h
        cases h
      | ok final' =>
        rw [walk] at h
        cases h
        rw [← isName] at found ⊢
        exact leadsTo_of_follow found walk
  · intro leads
    cases found : r.get? name with
    | none =>
      -- the chain ends at a declared name, and it goes on only from declared names
      rcases ReflTransGen.cases_head leads.chain with here | ⟨_, ⟨decl, declared, _⟩, _⟩
      · have declared := leads.inForce
        rw [← here, found] at declared
        cases declared
      · rw [found] at declared
        cases declared
    | some decl =>
      have isName : decl.name = name := name_of_get? found
      rw [canonical_of_get? found]
      rw [follow_of_leadsTo (isName.symm ▸ found) (by simp) (isName.symm ▸ leads)]
      rfl

theorem canonical_eq_none_iff {name : String} :
    r.canonical name = .ok none ↔ r.get? name = none := by
  refine ⟨fun h => ?_, canonical_of_missing⟩
  cases found : r.get? name with
  | none => rfl
  | some decl =>
    rw [canonical_of_get? found] at h
    cases walk : r.follow name [] decl (name_mem_of_get? found) with
    | error fault =>
      rw [walk] at h
      cases h
    | ok final =>
      rw [walk] at h
      cases h

/-! ## §4. Usages -/

/-- The usage `a` with its slots filled, as one of `decl`. -/
def boundTo (decl : AttributeDecl) (a : Attribute) : Attribute :=
  { a with args := bindArgs decl.params a.args, resolved := some ⟨decl.name, decl.target⟩ }

theorem run_resolveInPlace_of_error {a : Attribute} {fault : ResolveError}
    (h : r.canonical a.name = .error fault) : r.resolveInPlace.run a = .error fault a := by
  simp [resolveInPlace, h]

theorem run_resolveInPlace_of_none {a : Attribute} (h : r.canonical a.name = .ok none) :
    r.resolveInPlace.run a = .ok () a := by
  simp [resolveInPlace, h]

theorem run_resolveInPlace_of_some {a : Attribute} (h : r.canonical a.name = .ok (some decl)) :
    r.resolveInPlace.run a = .ok () (boundTo decl a) := by
  simp [resolveInPlace, boundTo, h]

theorem resolve_eq (r : Registry) (a : Attribute) :
    r.resolve a = (r.canonical a.name).map fun answer => answer.elim a (boundTo · a) := by
  unfold resolve
  cases h : r.canonical a.name with
  | error fault =>
    rw [run_resolveInPlace_of_error h]
    rfl
  | ok answer =>
    cases answer with
    | none =>
      rw [run_resolveInPlace_of_none h]
      rfl
    | some decl =>
      rw [run_resolveInPlace_of_some h]
      rfl

/-- A usage resolves when its name is not declared, or leads to a declaration that is no alias. -/
theorem exists_resolve_iff {a : Attribute} :
    (∃ a', r.resolve a = .ok a') ↔ r.get? a.name = none ∨ ∃ decl, r.LeadsTo a.name decl := by
  rw [resolve_eq]
  constructor
  · intro ⟨a', h⟩
    cases canonical : r.canonical a.name with
    | error fault =>
      rw [canonical] at h
      cases h
    | ok answer =>
      cases answer with
      | none => exact Or.inl (canonical_eq_none_iff.1 canonical)
      | some decl => exact Or.inr ⟨decl, canonical_eq_some_iff.1 canonical⟩
  · intro h
    rcases h with missing | ⟨decl, leads⟩
    · rw [canonical_of_missing missing]
      exact ⟨a, rfl⟩
    · rw [canonical_eq_some_iff.2 leads]
      exact ⟨_, rfl⟩

end DelegateSchema.Registry
