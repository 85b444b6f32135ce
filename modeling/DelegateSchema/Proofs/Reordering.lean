/-
  DelegateSchema.Proofs.Reordering — resolution does not see the order of declarations.

  Resolution goes through the declarations one by one.  The merge replaces them on the way and
  remembers what it has merged, on a model's own turn or on the way to another one; yet by
  `mergeInheritance_eq` each declaration is merged as if from scratch, from the originals that it
  looks up by name.  Where names are distinct, a look-up finds the same in every order, so a
  declaration becomes the same wherever it stands, and whether the models it refers to stand before
  it or behind it.

  Main results:
    * `find?_perm` — a look-up by a distinct key finds the same in every order,
    * `Registry.resolveDeclaration_congr` — registries that answer alike resolve alike,
    * `Schema.exists_ofDocument_reordered` — a reordered document resolves too,
    * `resolution_order_independent` — and every declaration becomes what it became before.
-/
import DelegateSchema.Proofs.Usages
import Mathlib.Data.List.Perm.Basic

namespace DelegateSchema

/-! ## §1. Lists in another order -/

section Permuted

variable {α β : Type}

/-- Where keys are distinct, the first element of a key is the only one. -/
theorem find?_perm {xs ys : List α} {key : α → String} (perm : xs.Perm ys)
    (distinct : (xs.map key).Nodup) (name : String) :
    xs.find? (key · == name) = ys.find? (key · == name) := by
  induction perm with
  | nil => rfl
  | cons x _ ih => rw [List.find?_cons, List.find?_cons, ih (List.nodup_cons.1 distinct).2]
  | swap x y rest =>
    have apart : key y ≠ key x := by
      intro same
      exact (List.nodup_cons.1 distinct).1 (same ▸ List.mem_cons_self)
    -- at most one of the two can have the name, so it does not matter which one is asked first
    by_cases first : key y = name
    · have second : (key x == name) = false := by simpa [← first] using Ne.symm apart
      simp [first, second]
    · have first : (key y == name) = false := by simpa using first
      simp [List.find?_cons, first]
  | trans perm _ ih ih' =>
    exact (ih distinct).trans (ih' ((perm.map key).nodup_iff.1 distinct))

variable {R : α → β → Prop} {xs xs' : List α} {ys ys' : List β}

theorem forall₂_comp {γ : Type} {S : β → γ → Prop} {zs : List γ} (h : List.Forall₂ R xs ys)
    (h' : List.Forall₂ S ys zs) : List.Forall₂ (fun x z => ∃ y, R x y ∧ S y z) xs zs := by
  induction h generalizing zs with
  | nil =>
    cases h'
    exact List.Forall₂.nil
  | cons first _ ih =>
    cases h' with
    | cons second rest => exact List.Forall₂.cons ⟨_, first, second⟩ (ih rest)

/-- Partners stand at the same places. -/
theorem rel_getElem? (h : List.Forall₂ R xs ys) (i : Nat) : Option.Rel R xs[i]? ys[i]? := by
  induction h generalizing i with
  | nil => exact Option.Rel.none
  | cons first _ ih =>
    cases i with
    | zero => exact Option.Rel.some first
    | succ i => exact ih i

/-- Where an element has only one partner, equal elements have equal partners, at whatever places of
    the two lists they stand. -/
theorem getElem?_of_forall₂ (unique : Relator.RightUnique R) (h : List.Forall₂ R xs ys)
    (h' : List.Forall₂ R xs' ys') {i j : Nat} (same : xs[i]? = xs'[j]?) : ys[i]? = ys'[j]? := by
  have here := rel_getElem? h i
  have there := rel_getElem? h' j
  rw [same] at here
  generalize xs'[j]? = x at here there
  generalize ys[i]? = y at here ⊢
  generalize ys'[j]? = y' at there ⊢
  cases here with
  | none =>
    cases there
    rfl
  | some partner =>
    cases there with
    | some partner' => exact congrArg some (unique partner partner')

end Permuted

/-! ## §2. Registries that answer alike -/

namespace Registry

variable {r r' : Registry}

theorem follow_congr (same : r.get? = r'.get?) {origin : String} {visited : List String}
    {decl : AttributeDecl} (declared : decl.name ∈ r.names) (declared' : decl.name ∈ r'.names) :
    r.follow origin visited decl declared = r'.follow origin visited decl declared' := by
  -- along the walk in `r`: the walk in `r'` asks the same, and so takes the same branch each time
  fun_induction follow r origin visited decl declared with
  | case1 visited decl declared ends =>
    rw [follow.eq_def r']
    simp only [ends]
  | case2 visited decl declared target isAlias seen =>
    rw [follow.eq_def r']
    simp only [isAlias, dif_pos seen]
  | case3 visited decl declared target isAlias seen missing =>
    rw [follow.eq_def r']
    simp only [isAlias, dif_neg seen]
    rw [same] at missing
    split
    next => rfl
    next found => cases missing.symm.trans found
  | case4 visited decl declared target isAlias seen next found ih =>
    rw [follow.eq_def r']
    simp only [isAlias, dif_neg seen]
    rw [same] at found
    split
    next missing => cases found.symm.trans missing
    next found' =>
      cases found.symm.trans found'
      exact ih _

theorem canonical_congr (same : r.get? = r'.get?) : r.canonical = r'.canonical := by
  funext name
  cases found : r.get? name with
  | none => rw [canonical_of_missing found, canonical_of_missing (same ▸ found)]
  | some decl =>
    have found' : r'.get? name = some decl := same ▸ found
    rw [canonical_of_get? found, canonical_of_get? found', follow_congr same]

/-- **Registries that answer alike resolve alike**, also where they refuse. -/
theorem resolveDeclaration_congr (same : r.get? = r'.get?) :
    r.resolveDeclaration = r'.resolveDeclaration := by
  have usages : r.resolve = r'.resolve := by
    funext a
    rw [resolve_eq, resolve_eq, canonical_congr same]
  unfold resolveDeclaration resolveAll
  rw [usages]

/-- Of declarations with distinct names, none replaces another. -/
theorem get?_registerAll_perm (r : Registry) {decls decls' : List AttributeDecl}
    (perm : decls.Perm decls') (distinct : (decls.map (·.name)).Nodup) :
    (r.registerAll decls).get? = (r.registerAll decls').get? := by
  funext name
  have reversed : decls.reverse.Perm decls'.reverse :=
    (List.reverse_perm decls).trans (perm.trans (List.reverse_perm decls').symm)
  have distinct : (decls.reverse.map (·.name)).Nodup :=
    ((List.reverse_perm decls).map _).nodup_iff.2 distinct
  unfold get?
  rw [decls_registerAll, decls_registerAll, List.find?_append, List.find?_append,
    find?_perm reversed distinct]

end Registry

/-! ## §3. Documents in another order -/

/-- The documents differ in the order of their declarations and of their attribute declarations,
    which have distinct names. -/
structure Document.Reordered (d d' : Document) : Prop where
  flattened : d.flattened = d'.flattened
  declarations : d.declarations.Perm d'.declarations
  attributes : d.attributes.Perm d'.attributes
  distinct : (d.attributes.map (·.name)).Nodup

namespace Document.Reordered

variable {d d' : Document}

theorem symm (h : d.Reordered d') : d'.Reordered d where
  flattened := h.flattened.symm
  declarations := h.declarations.symm
  attributes := h.attributes.symm
  distinct := (h.attributes.map _).nodup_iff.1 h.distinct

theorem resolveDeclaration_eq (h : d.Reordered d') :
    d.registry.resolveDeclaration = d'.registry.resolveDeclaration :=
  Registry.resolveDeclaration_congr
    (Registry.get?_registerAll_perm Registry.standard h.attributes h.distinct)

/-- The declarations are reordered also after their usages are resolved. -/
theorem resolved_perm (h : d.Reordered d') {decls decls' : List Declaration}
    (resolved : List.Forall₂ (fun decl r => d.registry.resolveDeclaration decl = .ok r)
      d.declarations decls)
    (resolved' : List.Forall₂ (fun decl r => d'.registry.resolveDeclaration decl = .ok r)
      d'.declarations decls') : decls.Perm decls' := by
  rw [← h.resolveDeclaration_eq] at resolved'
  refine List.rel_perm_imp ?_ resolved resolved' h.declarations
  intro decl r r' ok ok'
  exact Except.ok.inj (ok.symm.trans ok')

end Document.Reordered

/-- A declaration merges alike among its models in another order. -/
theorem mergeDeclaration_of_perm {decls decls' : List Declaration} (perm : decls.Perm decls')
    (distinct : ((modelsOf decls).map (·.name)).Nodup) {decl merged : Declaration}
    (member : decl ∈ decls) (h : mergeDeclaration (modelsOf decls) decl = .ok merged) :
    mergeDeclaration (modelsOf decls') decl = .ok merged := by
  have models : (modelsOf decls).Perm (modelsOf decls') := perm.filterMap _
  refine mergeDeclaration_of_more ?_ ?_ h
  · intro name u found
    exact (find?_perm models distinct name).symm.trans found
  · intro m isModel
    rw [findModel?_of_mem distinct (List.mem_filterMap.2 ⟨decl, member, isModel⟩)]
    rfl

namespace Schema

variable {d d' : Document} {s s' : Schema}

theorem checkSuperTypes_perm {models models' : List Model} (perm : models.Perm models')
    (distinct : (models.map (·.name)).Nodup) (h : checkSuperTypes models = .ok ()) :
    checkSuperTypes models' = .ok () := by
  rw [checkSuperTypes_ok_iff] at h ⊢
  intro m hm base listed
  unfold findModel?
  rw [← find?_perm perm distinct]
  exact h m (perm.mem_iff.2 hm) base listed

/-- **A reordered document resolves too.** -/
theorem exists_ofDocument_reordered (reordered : d.Reordered d') (h : ofDocument d = .ok s) :
    ∃ s', ofDocument d' = .ok s' := by
  obtain ⟨decls, resolved, distinct, rest⟩ := ofDocument_eq_ok_iff.1 h
  obtain ⟨decls', resolved'⟩ :
      ∃ decls', d'.declarations.mapM d'.registry.resolveDeclaration = .ok decls' := by
    rw [exists_mapM_ok_iff]
    intro decl hdecl
    obtain ⟨r, _, ok⟩ := forall₂_exists_right resolved (reordered.declarations.mem_iff.2 hdecl)
    exact ⟨r, reordered.resolveDeclaration_eq ▸ ok⟩
  have resolved' := mapM_ok_iff.1 resolved'
  have perm : decls.Perm decls' := reordered.resolved_perm resolved resolved'
  have models : (modelsOf decls).Perm (modelsOf decls') := perm.filterMap _
  have distinct' := (models.map (·.name)).nodup_iff.1 distinct
  rw [reordered.flattened] at rest
  split at rest
  next flat =>
    have known := checkSuperTypes_perm models distinct rest.1
    refine ⟨⟨decls'⟩, ofDocument_eq_ok_iff.2 ⟨decls', resolved', distinct', ?_⟩⟩
    rw [if_pos flat]
    exact ⟨known, rfl⟩
  next plain =>
    obtain ⟨merged, all, _⟩ := rest
    -- merging looks other models up, and finds them at whatever place they stand
    obtain ⟨merged', all'⟩ :
        ∃ merged', decls'.mapM (mergeDeclaration (modelsOf decls')) = .ok merged' := by
      rw [exists_mapM_ok_iff]
      intro decl hdecl
      have member := perm.mem_iff.2 hdecl
      obtain ⟨m, _, ok⟩ := forall₂_exists_right all member
      exact ⟨m, mergeDeclaration_of_perm perm distinct member ok⟩
    refine ⟨⟨merged'⟩, ofDocument_eq_ok_iff.2 ⟨decls', resolved', distinct', ?_⟩⟩
    rw [if_neg plain]
    exact ⟨merged', mapM_ok_iff.1 all', rfl⟩

/-! ## §4. What a declaration becomes -/

/-- The declaration `decl` becomes `final`, in a document whose resolved declarations are `decls`:
    its usages are resolved and, unless the document is flattened, its super types are merged. -/
def Becomes (d : Document) (decls : List Declaration) (decl final : Declaration) : Prop :=
  ∃ r, d.registry.resolveDeclaration decl = .ok r ∧ r ∈ decls ∧
    if d.flattened then final = r else mergeDeclaration (modelsOf decls) r = .ok final

theorem becomes_unique (d : Document) (decls : List Declaration) :
    Relator.RightUnique (Becomes d decls) := by
  intro decl final final' ⟨r, ok, _, h⟩ ⟨r', ok', _, h'⟩
  cases ok.symm.trans ok'
  split at h
  next flat =>
    rw [if_pos flat] at h'
    exact h.trans h'.symm
  next plain =>
    rw [if_neg plain] at h'
    exact Except.ok.inj (h.symm.trans h')

/-- The schema of a document is what its declarations become. -/
theorem exists_becomes (h : ofDocument d = .ok s) : ∃ decls,
    List.Forall₂ (fun decl r => d.registry.resolveDeclaration decl = .ok r) d.declarations decls ∧
    ((modelsOf decls).map (·.name)).Nodup ∧
    List.Forall₂ (Becomes d decls) d.declarations s.declarations := by
  obtain ⟨decls, resolved, distinct, rest⟩ := ofDocument_eq_ok_iff.1 h
  have last : List.Forall₂ (fun r final => r ∈ decls ∧
      if d.flattened then final = r else mergeDeclaration (modelsOf decls) r = .ok final)
      decls s.declarations := by
    rw [List.forall₂_and_left]
    refine ⟨fun _ member => member, ?_⟩
    split at rest
    next flat =>
      obtain ⟨_, rfl⟩ := rest
      simp only [if_pos flat]
      exact List.forall₂_same.2 fun _ _ => rfl
    next plain =>
      obtain ⟨merged, all, rfl⟩ := rest
      simp only [if_neg plain]
      exact all
  exact ⟨decls, resolved, distinct, forall₂_comp resolved last⟩

/-- A declaration becomes the same in a document of another order. -/
theorem Becomes.of_perm (reordered : d.Reordered d') {decls decls' : List Declaration}
    (perm : decls.Perm decls') (distinct : ((modelsOf decls).map (·.name)).Nodup)
    {decl final : Declaration} (h : Becomes d decls decl final) : Becomes d' decls' decl final := by
  obtain ⟨r, ok, member, rest⟩ := h
  refine ⟨r, reordered.resolveDeclaration_eq ▸ ok, perm.mem_iff.1 member, ?_⟩
  rw [← reordered.flattened]
  split at rest
  next flat =>
    rw [if_pos flat]
    exact rest
  next plain =>
    rw [if_neg plain]
    exact mergeDeclaration_of_perm perm distinct member rest

/-- **Resolution does not depend on the order of declarations.**  Take two documents, both flattened
    or both not, with the same declarations and the same attribute declarations in any order, the
    latter of distinct names.  One of them resolves exactly when the other does.  Then a declaration
    becomes the same in both, wherever it stands: the second schema has the declarations of the
    first, each at the place to which its source has moved. -/
theorem resolution_order_independent (reordered : d.Reordered d') :
    ((∃ s, ofDocument d = .ok s) ↔ ∃ s', ofDocument d' = .ok s') ∧
    ∀ s s', ofDocument d = .ok s → ofDocument d' = .ok s' →
      s.declarations.Perm s'.declarations ∧
      ∀ i j : Nat, d.declarations[i]? = d'.declarations[j]? →
        s.declarations[i]? = s'.declarations[j]? := by
  refine ⟨⟨?_, ?_⟩, ?_⟩
  · intro ⟨s, h⟩
    exact exists_ofDocument_reordered reordered h
  · intro ⟨s', h'⟩
    exact exists_ofDocument_reordered reordered.symm h'
  · intro s s' h h'
    obtain ⟨decls, resolved, distinct, all⟩ := exists_becomes h
    obtain ⟨decls', resolved', _, all'⟩ := exists_becomes h'
    have perm : decls.Perm decls' := reordered.resolved_perm resolved resolved'
    -- both are now what the declarations become in the second document
    have all := all.imp fun _ _ becomes => becomes.of_perm reordered perm distinct
    have unique := becomes_unique d' decls'
    refine ⟨List.rel_perm_imp unique all all' reordered.declarations, ?_⟩
    intro i j same
    exact getElem?_of_forall₂ unique all all' same

end Schema

/-- A puppy stands before the dog that it is, and the dog before the animal; their key is written by
    an alias that is declared before its target. -/
def litter : Document where
  attributes := [
    { name := "@key", aliasOf := some "@primary" },
    { name := "@primary", aliasOf := some "@id" }]
  declarations := [
    .model { name := "Puppy", superTypes := ["Dog"] },
    .model {
      name := "Dog"
      fields := [{ name := "breed", type := { scalar := some "String" } }]
      superTypes := ["Animal"] },
    .model {
      name := "Animal"
      fields := [
        { name := "id", type := { scalar := some "Int" }, attributes := [{ name := "@key" }] }] }]

/-- The litter from its end. -/
def litterReversed : Document where
  attributes := litter.attributes.reverse
  declarations := litter.declarations.reverse

/-- In one order the dog is merged on the turn of the puppy and remembered for its own, in the other
    on its own turn and remembered for the puppy; the puppy has the same fields in both. -/
theorem puppy_alike_in_both_orders :
    litter.Reordered litterReversed ∧ ∃ s s' puppy, Schema.ofDocument litter = .ok s ∧
      Schema.ofDocument litterReversed = .ok s' ∧
      s.declarations[0]? = some (.model puppy) ∧ s'.declarations[2]? = some (.model puppy) ∧
      puppy.fieldNames = ["id", "breed"] := by
  have reordered : litter.Reordered litterReversed :=
    { flattened := rfl
      declarations := (List.reverse_perm _).symm
      attributes := (List.reverse_perm _).symm
      distinct := by decide }
  obtain ⟨both, alike⟩ := Schema.resolution_order_independent reordered
  have resolves : (Schema.ofDocument litter).toOption.any (fun s =>
      (s.declarations[0]?.bind Declaration.model?).any (·.fieldNames == ["id", "breed"])) =
      true := by
    decide +kernel
  obtain ⟨s, resolved, first⟩ := (Option.any_eq_true _ _).1 resolves
  obtain ⟨puppy, isModel, names⟩ := (Option.any_eq_true _ _).1 first
  obtain ⟨decl, here, isModel⟩ := Option.bind_eq_some_iff.1 isModel
  rw [decl.eq_model isModel] at here
  have resolved := eq_ok_of_toOption resolved
  obtain ⟨s', resolved'⟩ := both.1 ⟨s, resolved⟩
  have moved := (alike s s' resolved resolved').2 0 2 rfl
  exact ⟨reordered, s, s', puppy, resolved, resolved', here, moved.symm.trans here,
    by simpa using names⟩

end DelegateSchema
