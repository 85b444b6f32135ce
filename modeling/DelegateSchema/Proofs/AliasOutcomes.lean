/-
  DelegateSchema.Proofs.AliasOutcomes — all ends of a chain of aliases, and what a usage becomes.

  From a declared name the aliases lead on, one target each.  Such a chain has one of three ends: a
  declaration that is no alias, an alias whose target is not declared, or none at all.  Since a
  registry has finitely many names, a chain without an end comes back to a name, and the walk stops
  there.  The usage that is resolved stays as it is until the walk has come to a declaration.

  Main results:
    * `ends_follow` — the walk is over after at most one round for each declared name,
    * `canonical_eq_iff` — each answer is given for one end of the chain, and every chain has one,
    * `getElem?_bindArgs` — unnamed arguments are bound in order, past the named ones,
    * `alias_resolution_exact` — the above for every registry that comes about by declarations.
-/
import DelegateSchema.Proofs.Usages
import DelegateSchema.Proofs.Walks

namespace DelegateSchema.Registry

open Relation

variable {r : Registry} {name target : String} {decl : AttributeDecl}

/-! ## §1. Chains that break off and chains without an end -/

/-- The chain from `name` comes to the alias `last`, whose target is not declared. -/
structure BreaksOff (r : Registry) (name last target : String) : Prop where
  chain : ReflTransGen r.AliasOf name last
  step : r.AliasOf last target
  missing : r.get? target = none

/-- The chain from `name` never ends. -/
def Unending (r : Registry) (name : String) : Prop :=
  ∃ chain : Nat → String, chain 0 = name ∧ ∀ n, r.AliasOf (chain n) (chain (n + 1))

theorem not_aliasOf_of_missing (missing : r.get? name = none) : ¬ r.AliasOf name target := by
  rintro ⟨decl, found, _⟩
  rw [missing] at found
  cases found

theorem Unending.exists_alias (h : r.Unending name) : ∃ target, r.AliasOf name target := by
  obtain ⟨chain, rfl, steps⟩ := h
  exact ⟨chain 1, steps 0⟩

/-- A chain without an end goes on without an end from each of its names. -/
theorem Unending.reached {later : String} (h : r.Unending name)
    (reached : ReflTransGen r.AliasOf name later) : r.Unending later := by
  induction reached with
  | refl => exact h
  | @tail here later _ step ih =>
    obtain ⟨chain, rfl, steps⟩ := ih
    exact ⟨fun n => chain (n + 1), aliasOf_unique (steps 0) step, fun n => steps (n + 1)⟩

theorem Unending.of_alias (step : r.AliasOf name target) (h : r.Unending target) :
    r.Unending name := by
  obtain ⟨chain, rfl, steps⟩ := h
  refine ⟨fun n => n.casesOn name chain, rfl, fun n => ?_⟩
  cases n with
  | zero => exact step
  | succ n => exact steps n

/-- The next name after one on a circle is on a circle too. -/
theorem exists_alias_of_circle (circle : TransGen r.AliasOf name name) :
    ∃ target, r.AliasOf name target ∧ TransGen r.AliasOf target target := by
  obtain ⟨target, step, back⟩ := TransGen.head'_iff.1 circle
  exact ⟨target, step, TransGen.tail' back step⟩

/-- A chain that runs in a circle never ends. -/
theorem unending_of_circle (circle : TransGen r.AliasOf name name) : r.Unending name := by
  -- the chain takes one step after another among the names on circles
  choose next step onCircle using
    fun x : { name // TransGen r.AliasOf name name } => exists_alias_of_circle x.2
  let chain : Nat → { name // TransGen r.AliasOf name name } :=
    fun n => n.rec ⟨name, circle⟩ fun _ here => ⟨next here, onCircle here⟩
  exact ⟨fun n => (chain n).1, rfl, fun n => step (chain n)⟩

/-! ## §2. One end for each chain -/

theorem LeadsTo.ne_none (h : r.LeadsTo name decl) : r.get? name ≠ none := by
  intro missing
  have answer := canonical_eq_some_iff.2 h
  rw [canonical_of_missing missing] at answer
  cases answer

theorem LeadsTo.reached {later : String} (h : r.LeadsTo name decl)
    (reached : ReflTransGen r.AliasOf name later) : r.LeadsTo later decl := by
  induction reached with
  | refl => exact h
  | tail _ step ih => exact ih.of_alias step

theorem LeadsTo.not_unending (h : r.LeadsTo name decl) : ¬ r.Unending name := by
  intro unending
  obtain ⟨target, step⟩ := (unending.reached h.chain).exists_alias
  exact h.not_aliasOf step

theorem BreaksOff.ne_none {last : String} (h : r.BreaksOff name last target) :
    r.get? name ≠ none := by
  intro missing
  rcases ReflTransGen.cases_head h.chain with rfl | ⟨next, step, _⟩
  · exact not_aliasOf_of_missing missing h.step
  · exact not_aliasOf_of_missing missing step

theorem BreaksOff.not_leadsTo {last : String} (h : r.BreaksOff name last target) :
    ¬ r.LeadsTo name decl :=
  fun leads => (leads.reached (h.chain.tail h.step)).ne_none h.missing

theorem BreaksOff.not_unending {last : String} (h : r.BreaksOff name last target) :
    ¬ r.Unending name := by
  intro unending
  obtain ⟨further, step⟩ := (unending.reached (h.chain.tail h.step)).exists_alias
  exact not_aliasOf_of_missing h.missing step

theorem BreaksOff.of_alias {last next : String} (h : r.BreaksOff name last target)
    (step : r.AliasOf name next) (declared : r.get? next ≠ none) :
    r.BreaksOff next last target := by
  rcases ReflTransGen.cases_head h.chain with rfl | ⟨next', step', rest⟩
  · rw [aliasOf_unique step h.step] at declared
    exact absurd h.missing declared
  · rw [aliasOf_unique step step']
    exact ⟨rest, h.step, h.missing⟩

/-- A chain breaks off at one alias only. -/
theorem BreaksOff.unique {last last' target' : String} (h : r.BreaksOff name last target)
    (h' : r.BreaksOff name last' target') : last = last' ∧ target = target' := by
  obtain ⟨chain, step, missing⟩ := h
  -- a name has one alias, so both chains take the same first step
  induction chain using ReflTransGen.head_induction_on with
  | refl =>
    rcases ReflTransGen.cases_head h'.chain with rfl | ⟨next, step', rest⟩
    · exact ⟨rfl, aliasOf_unique step h'.step⟩
    · rw [aliasOf_unique step' step] at rest
      exact absurd missing (BreaksOff.ne_none ⟨rest, h'.step, h'.missing⟩)
  | head first rest ih =>
    exact ih (h'.of_alias first (BreaksOff.ne_none ⟨rest, step, missing⟩))

/-- What an answer says about the chain from `name`. -/
def Explains (r : Registry) (name : String) : Except ResolveError (Option AttributeDecl) → Prop
  | .ok none => r.get? name = none
  | .ok (some decl) => r.LeadsTo name decl
  | .error (.unknownAlias last target) => r.BreaksOff name last target
  | .error (.aliasCycle start) => start = name ∧ r.Unending name
  | .error _ => False

/-! ## §3. The walk -/

variable {origin : String} {visited : List String} {fault : ResolveError}

/-- A round of the walk: the names left behind and the declaration at hand. -/
def aliasRound (r : Registry) (origin : String) :
    List String × AttributeDecl → (List String × AttributeDecl) ⊕ Except ResolveError AttributeDecl
  | (visited, decl) =>
    match decl.aliasOf with
    | none => .inr (.ok decl)
    | some target =>
      if decl.name ∈ visited then .inr (.error (.aliasCycle origin))
      else
        match r.get? target with
        | none => .inr (.error (.unknownAlias decl.name target))
        | some next => .inl (decl.name :: visited, next)

/-- **The walk ends**, since each round but the last leaves a name behind that was not left
    before. -/
theorem ends_follow (r : Registry) (origin : String) (visited : List String)
    (declared : decl.name ∈ r.names) :
    ∃ rounds ≤ unvisited r.names visited,
      Ends (r.aliasRound origin) rounds (visited, decl)
        (r.follow origin visited decl declared) := by
  fun_induction follow r origin visited decl declared with
  | case1 visited decl declared ends =>
    exact ⟨0, Nat.zero_le _, Ends.last (by simp only [aliasRound, ends])⟩
  | case2 visited decl declared target isAlias seen =>
    exact ⟨0, Nat.zero_le _, Ends.last (by simp only [aliasRound, isAlias, if_pos seen])⟩
  | case3 visited decl declared target isAlias new missing =>
    exact ⟨0, Nat.zero_le _, Ends.last (by simp only [aliasRound, isAlias, if_neg new, missing])⟩
  | case4 visited decl declared target isAlias new next found ih =>
    obtain ⟨rounds, bound, ends⟩ := ih
    have fewer := unvisited_cons_lt declared new
    exact ⟨rounds + 1, by omega,
      Ends.next (by simp only [aliasRound, isAlias, if_neg new, found]) ends⟩

/-- **Where the walk fails**, the chain never ends or breaks off there. -/
theorem fault_of_follow {declared : decl.name ∈ r.names} (inForce : r.get? decl.name = some decl)
    (trail : ∀ name ∈ visited, TransGen r.AliasOf name decl.name)
    (h : r.follow origin visited decl declared = .error fault) :
    (fault = .aliasCycle origin ∧ r.Unending decl.name) ∨
      ∃ last target, fault = .unknownAlias last target ∧ r.BreaksOff decl.name last target := by
  fun_induction follow r origin visited decl declared with
  | case1 => cases h
  | case2 visited decl declared target isAlias seen =>
    -- the names left behind all lead to the one at hand, so this one leads to itself
    cases h
    exact Or.inl ⟨rfl, unending_of_circle (trail decl.name seen)⟩
  | case3 visited decl declared target isAlias new missing =>
    cases h
    exact Or.inr ⟨decl.name, target, rfl, ReflTransGen.refl, ⟨decl, inForce, isAlias⟩, missing⟩
  | case4 visited decl declared target isAlias new next found ih =>
    have isNext : next.name = target := name_of_get? found
    have step : r.AliasOf decl.name next.name := ⟨decl, inForce, isNext ▸ isAlias⟩
    have onward : ∀ name ∈ decl.name :: visited, TransGen r.AliasOf name next.name := by
      intro name hname
      rcases List.mem_cons.1 hname with rfl | old
      · exact TransGen.single step
      · exact (trail name old).tail step
    rcases ih (isNext.symm ▸ found) onward h with ⟨same, unending⟩ | ⟨last, target, same, breaks⟩
    · exact Or.inl ⟨same, unending.of_alias step⟩
    · exact Or.inr ⟨last, target, same, ReflTransGen.head step breaks.chain, breaks.step,
        breaks.missing⟩

/-- Every name is answered in one of four ways, each for an end of its chain. -/
theorem canonical_cases (r : Registry) (name : String) :
    (r.canonical name = .ok none ∧ r.get? name = none) ∨
      (∃ decl, r.canonical name = .ok (some decl) ∧ r.LeadsTo name decl) ∨
      (∃ last target, r.canonical name = .error (.unknownAlias last target) ∧
        r.BreaksOff name last target) ∨
      (r.canonical name = .error (.aliasCycle name) ∧ r.Unending name) := by
  cases found : r.get? name with
  | none => exact Or.inl ⟨canonical_of_missing found, rfl⟩
  | some decl =>
    have isName : decl.name = name := name_of_get? found
    have answer := canonical_of_get? found
    cases walk : r.follow name [] decl (name_mem_of_get? found) with
    | ok final =>
      rw [walk] at answer
      exact Or.inr (Or.inl ⟨final, answer, canonical_eq_some_iff.1 answer⟩)
    | error fault =>
      rw [walk] at answer
      have failed := fault_of_follow (isName.symm ▸ found) (by simp) walk
      rw [isName] at failed
      rcases failed with ⟨rfl, unending⟩ | ⟨last, target, rfl, breaks⟩
      · exact Or.inr (Or.inr (Or.inr ⟨answer, unending⟩))
      · exact Or.inr (Or.inr (Or.inl ⟨last, target, answer, breaks⟩))

theorem canonical_of_breaksOff {last : String} (h : r.BreaksOff name last target) :
    r.canonical name = .error (.unknownAlias last target) := by
  rcases canonical_cases r name with ⟨_, missing⟩ | ⟨decl, _, leads⟩ |
    ⟨last', target', answer, h'⟩ | ⟨_, unending⟩
  · exact absurd missing h.ne_none
  · exact absurd leads h.not_leadsTo
  · obtain ⟨rfl, rfl⟩ := h.unique h'
    exact answer
  · exact absurd unending h.not_unending

theorem canonical_of_unending (h : r.Unending name) :
    r.canonical name = .error (.aliasCycle name) := by
  rcases canonical_cases r name with ⟨_, missing⟩ | ⟨decl, _, leads⟩ | ⟨last, target, _, breaks⟩ |
    ⟨answer, _⟩
  · obtain ⟨target, step⟩ := h.exists_alias
    exact absurd step (not_aliasOf_of_missing missing)
  · exact absurd h leads.not_unending
  · exact absurd h breaks.not_unending
  · exact answer

/-- **A name is answered by the end of its chain**, whichever it is. -/
theorem canonical_eq_iff {answer : Except ResolveError (Option AttributeDecl)} :
    r.canonical name = answer ↔ r.Explains name answer := by
  constructor
  · rintro rfl
    rcases canonical_cases r name with ⟨answer, missing⟩ | ⟨decl, answer, leads⟩ |
      ⟨last, target, answer, breaks⟩ | ⟨answer, unending⟩ <;> rw [answer]
    · exact missing
    · exact leads
    · exact breaks
    · exact ⟨rfl, unending⟩
  · intro h
    cases answer with
    | ok found =>
      cases found with
      | none => exact canonical_of_missing h
      | some decl => exact canonical_eq_some_iff.2 h
    | error fault =>
      cases fault with
      | unknownAlias last target => exact canonical_of_breaksOff h
      | aliasCycle start =>
        obtain ⟨rfl, unending⟩ := h
        exact canonical_of_unending unending
      | unknownSuperType model superType => cases h
      | inheritanceCycle model | duplicateModel model | unknownModel model => cases h

/-! ## §4. Usages -/

/-- How many arguments before the place `i` have no name. -/
def unnamedBefore (args : List AttributeArg) (i : Nat) : Nat :=
  (args.take i).countP (·.name.isNone)

/-- The argument `arg` at the place `i`, bound to a parameter: to its own name, or else to the
    parameter whose place it has among the unnamed arguments. -/
def boundAt (params : List String) (args : List AttributeArg) (i : Nat) (arg : AttributeArg) :
    AttributeArg :=
  { arg with param := arg.name.or params[unnamedBefore args i]? }

theorem getElem?_bindArgs (params : List String) (args : List AttributeArg) (i : Nat) :
    (bindArgs params args)[i]? = args[i]?.map (boundAt params args i) := by
  -- only an unnamed argument uses up a parameter and counts for the places behind it
  unfold boundAt
  induction args generalizing params i with
  | nil => simp [bindArgs]
  | cons arg rest ih =>
    cases named : arg.name with
    | some name =>
      simp only [bindArgs, named]
      cases i with
      | zero => simp [named]
      | succ i => simp [ih, unnamedBefore, named]
    | none =>
      simp only [bindArgs, named]
      cases i with
      | zero => simp [named, unnamedBefore, List.head?_eq_getElem?]
      | succ i => simp [ih, unnamedBefore, named]

/-- The usage `a'` is `a` with its slots filled, as one of `decl`. -/
structure Binds (decl : AttributeDecl) (a a' : Attribute) : Prop where
  name : a'.name = a.name
  resolved : a'.resolved = some ⟨decl.name, decl.target⟩
  args : ∀ i, a'.args[i]? = a.args[i]?.map (boundAt decl.params a.args i)

theorem binds_boundTo (decl : AttributeDecl) (a : Attribute) : Binds decl a (boundTo decl a) :=
  ⟨rfl, rfl, getElem?_bindArgs decl.params a.args⟩

/-! ## §5. Registries that come about -/

/-- Of the declarations of one name, the latest is in force. -/
theorem get?_registerAll_eq (start : Registry) (decls : List AttributeDecl) (name : String) :
    (start.registerAll decls).get? name =
      ((decls.filter (·.name == name)).getLast?).or (start.get? name) := by
  unfold get?
  rw [decls_registerAll, List.find?_append, ← List.head?_filter, List.filter_reverse,
    List.head?_reverse]

/-- **Aliases are followed to their end.**  Take any registry, such as the empty one or that of the
    built-in attributes, and register any declarations, of which a later one replaces an earlier
    one of its name.  From every declared name the walk is over after at most one round for each
    name of the registry.  The answer tells the end of the chain: an undeclared name, the
    declaration that is no alias, the alias whose target is not declared, or that there is no end.
    A usage stays as it is where the walk fails and where its name is not declared; otherwise it is
    bound to the declaration that its name leads to, the unnamed arguments to the parameters in
    order, whatever named ones stand between them. -/
theorem alias_resolution_exact (start : Registry) (decls : List AttributeDecl) :
    let r := start.registerAll decls
    (∀ name, r.get? name = ((decls.filter (·.name == name)).getLast?).or (start.get? name)) ∧
    (∀ name decl, r.get? name = some decl → ∃ rounds ≤ r.names.length, ∃ result,
      Ends (r.aliasRound name) rounds ([], decl) result ∧ r.canonical name = result.map some) ∧
    (∀ name answer, r.canonical name = answer ↔ r.Explains name answer) ∧
    (∀ a fault, r.canonical a.name = .error fault → r.resolveInPlace.run a = .error fault a) ∧
    (∀ a, r.get? a.name = none → r.resolveInPlace.run a = .ok () a) ∧
    ∀ a decl, r.LeadsTo a.name decl →
      ∃ a', r.resolveInPlace.run a = .ok () a' ∧ Binds decl a a' := by
  intro r
  refine ⟨get?_registerAll_eq start decls, ?_, fun _ _ => canonical_eq_iff,
    fun _ _ => run_resolveInPlace_of_error, ?_, ?_⟩
  · intro name decl found
    obtain ⟨rounds, bound, ends⟩ := ends_follow r name [] (name_mem_of_get? found)
    have all : unvisited r.names [] ≤ r.names.length := List.countP_le_length
    exact ⟨rounds, bound.trans all, _, ends, canonical_of_get? found⟩
  · intro a missing
    exact run_resolveInPlace_of_none (canonical_of_missing missing)
  · intro a decl leads
    exact ⟨_, run_resolveInPlace_of_some (canonical_eq_some_iff.2 leads), binds_boundTo decl a⟩

/-- A chain to the built-in relation by two aliases.  The second one led nowhere at first. -/
def relationAliases : List AttributeDecl :=
  [{ name := "@rel", aliasOf := some "@link" },
    { name := "@link", aliasOf := some "@nowhere" },
    { name := "@link", aliasOf := some "@relation" }]

/-- A usage with a named argument between two unnamed ones. -/
def relationUsage : Attribute :=
  { name := "@rel"
    args := [
      { name := none, value := .literal (.string "owner") },
      { name := some "onDelete", value := .ref "Cascade" },
      { name := none, value := .array [.ref "ownerId"] }] }

/-- The unnamed arguments of the usage go to the first two parameters of the relation. -/
theorem relationUsage_bound :
    (standard.registerAll relationAliases).LeadsTo relationUsage.name relation ∧
      ∃ a', (standard.registerAll relationAliases).resolveInPlace.run relationUsage = .ok () a' ∧
        Binds relation relationUsage a' ∧
        a'.args[2]?.map (·.param) = some (some "fields") := by
  obtain ⟨_, _, answers, _, _, bound⟩ := alias_resolution_exact standard relationAliases
  have leads : (standard.registerAll relationAliases).LeadsTo relationUsage.name relation :=
    (answers relationUsage.name (.ok (some relation))).1 (eq_ok_of_toOption (by decide +kernel))
  obtain ⟨a', run, binds⟩ := bound relationUsage relation leads
  refine ⟨leads, a', run, binds, ?_⟩
  rw [binds.args 2]
  rfl

end DelegateSchema.Registry
