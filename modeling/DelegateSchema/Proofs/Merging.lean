/-
  DelegateSchema.Proofs.Merging — the merge of a whole document, and what it remembers.

  The merge of a document goes through the declarations, remembers the models it has merged, and
  keeps the names of those whose super types it is merging.  What it remembers is never wrong: a
  model merged on the way to another one is merged as it would be on its own turn, and the names
  kept are those of models below the one that is asked for, so none of them is asked for again
  unless the super types run in a circle.  So every declaration is merged as if from scratch, and
  fails with the same fault.

  Main results:
    * `mergeModel_of_clear` — a model that merges on one path merges on every path that it does not
      come back to,
    * `mergeNamed_agrees` — a merge that remembers and one that does not agree,
    * `mergeInheritance_eq` — the merge of a document is the merge of each declaration.
-/
import DelegateSchema.Proofs.Inheritance
import Mathlib.Logic.Relation

namespace DelegateSchema

open Relation

/-! ## §1. Paths -/

section Paths

variable {models : List Model} (distinct : (models.map (·.name)).Nodup)
include distinct

/-- A model that merges is not above itself. -/
theorem not_extends_self_of_mergeModel {path : List String} {m r : Model} {known : m ∈ models}
    (h : mergeModel models path m known = .ok r) : ¬ TransGen (Extends models) m.name m.name := by
  have up := acc_of_mergeModel distinct h
  generalize m.name = name at up
  induction up with
  | intro name _ ih =>
    intro circle
    obtain ⟨base, ⟨u, hu, isName, listed⟩, back⟩ := TransGen.head'_iff.1 circle
    refine ih base ⟨u, isName ▸ findModel?_of_mem distinct hu, listed⟩ ?_
    -- the circle goes through the super type as well
    exact TransGen.tail' back ⟨u, hu, isName, listed⟩

/-- **A model that merges on one path merges on every path that it does not come back to**, and to
    the same result. -/
theorem mergeModel_of_clear {path path' : List String} {m r : Model} {known : m ∈ models}
    (h : mergeModel models path m known = .ok r)
    (clear : ∀ x ∈ path', ¬ ReflTransGen (Extends models) m.name x) :
    mergeModel models path' m known = .ok r := by
  refine mergeModel.induct models
    (fun path m known => ∀ r, mergeModel models path m known = .ok r →
      ∀ path', (∀ x ∈ path', ¬ ReflTransGen (Extends models) m.name x) →
        mergeModel models path' m known = .ok r)
    (fun own path sofar bases => ∀ r, mergeBases models own path sofar bases = .ok r →
      ∀ path', (∀ base ∈ bases, ∀ x ∈ path', ¬ ReflTransGen (Extends models) base x) →
        mergeBases models own path' sofar bases = .ok r)
    ?_ ?_ ?_ ?_ ?_ path m known r h path' clear
  · intro path m known repeated r h
    rw [mergeModel, dif_pos repeated] at h
    cases h
  · intro path m known _ ih r h path' clear
    have open_above := not_extends_self_of_mergeModel distinct h
    obtain ⟨inherited, ok, rfl⟩ := mergeModel_eq_ok h
    have new : m.name ∉ path' := fun again => clear m.name again ReflTransGen.refl
    rw [mergeModel, dif_neg new, ih inherited ok]
    · rfl
    -- the model itself joins the path, and its super types do not come back to it
    intro base listed x hx above
    have step : Extends models m.name base := ⟨m, known, rfl, listed⟩
    rcases List.mem_cons.1 hx with rfl | earlier
    · exact open_above (TransGen.head' step above)
    · exact clear x earlier (ReflTransGen.head step above)
  · intro own path sofar r h path' _
    rw [mergeBases] at h ⊢
    exact h
  · intro own path sofar base bases missing r h
    obtain ⟨_, found, _⟩ := mergeBases_cons_eq_ok h
    cases missing.symm.trans found
  · intro own path sofar base bases m found ih_base ih_rest r h path' clear
    obtain ⟨u, hu, merged, first, rest⟩ := mergeBases_cons_eq_ok h
    cases found.symm.trans hu
    have first' := ih_base merged first path' fun x hx =>
      name_of_findModel? found ▸ clear base List.mem_cons_self x hx
    have rest' := ih_rest merged r rest path' fun b hb => clear b (List.mem_cons_of_mem _ hb)
    rw [mergeBases_of_found found, first']
    exact rest'

end Paths

/-! ## §2. One model -/

section Named

variable {models : List Model} {st : MergeState} {name : String}

theorem mergeNamed_of_remembered {done : Model} (remembered : st.merged.lookup name = some done) :
    mergeNamed models st name = .ok ⟨done, st, rfl⟩ := by
  rw [mergeNamed, remembered]

theorem mergeNamed_of_found {m : Model} (forgotten : st.merged.lookup name = none)
    (found : findModel? models name = some m) :
    mergeNamed models st name =
      if name ∈ st.visiting then .error (.inheritanceCycle name)
      else do return (← mergeListed models m (st.enter name) {} m.superTypes).leave m := by
  rw [mergeNamed, forgotten]
  dsimp only
  split
  next missing => cases missing.symm.trans found
  next found' =>
    cases found'.symm.trans found
    rfl

end Named

/-- What is remembered is right: a remembered model is what the model of its name merges to. -/
def MergeState.Sound (models : List Model) (st : MergeState) : Prop :=
  ∀ name r, st.merged.lookup name = some r →
    ∃ (m : Model) (found : findModel? models name = some m),
      mergeModel models [] m (mem_of_findModel? found) = .ok r

/-- A merge that remembers gives what one that does not gives, and then remembers right. -/
structure Agrees (models : List Model) {st : MergeState} {α : Type}
    (x : Except ResolveError (st.After α)) (y : Except ResolveError α) : Prop where
  result_eq : (·.result) <$> x = y
  sound : ∀ after, x = .ok after → after.state.Sound models

section Agreement

variable {models : List Model} {st : MergeState}

theorem agrees_error {α : Type} (fault : ResolveError) :
    Agrees models (.error fault : Except ResolveError (st.After α)) (.error fault) :=
  ⟨rfl, fun _ h => nomatch h⟩

theorem agrees_ok {α : Type} {after : st.After α} (sound : after.state.Sound models) :
    Agrees models (.ok after) (.ok after.result) := by
  refine ⟨rfl, ?_⟩
  intro _ same
  cases same
  exact sound

theorem Agrees.eq_ok {α : Type} {x : Except ResolveError (st.After α)} {y : Except ResolveError α}
    (h : Agrees models x y) {after : st.After α} (ok : x = .ok after) : y = .ok after.result := by
  rw [← h.result_eq, ok]
  rfl

/-- One step after the other. -/
theorem Agrees.bind {α β : Type} {st' : MergeState} {x : Except ResolveError (st.After α)}
    {y : Except ResolveError α} {f : st.After α → Except ResolveError (st'.After β)}
    {g : α → Except ResolveError β} (h : Agrees models x y)
    (next : ∀ after, x = .ok after → Agrees models (f after) (g after.result)) :
    Agrees models (x >>= f) (y >>= g) := by
  obtain ⟨rfl, _⟩ := h
  cases x with
  | error fault => exact agrees_error fault
  | ok after => exact next after rfl

theorem Agrees.followedBy {α β : Type} {first : st.After α}
    {x : Except ResolveError (first.state.After β)} {y : Except ResolveError β}
    (h : Agrees models x y) : Agrees models (do return first.followedBy (← x)) y := by
  obtain ⟨rfl, sound⟩ := h
  cases x with
  | error fault => exact agrees_error fault
  | ok after => exact agrees_ok (sound after rfl)

/-- The result of a model may be remembered. -/
theorem sound_leave {name : String} {m : Model} {bases : (st.enter name).After Inherited}
    (sound : bases.state.Sound models) (found : findModel? models name = some m)
    (merges : mergeModel models [] m (mem_of_findModel? found) =
      .ok (m.withInherited bases.result)) : (bases.leave m).state.Sound models := by
  intro other r remembered
  rw [MergeState.After.leave, List.lookup_cons] at remembered
  by_cases same : other = name
  · subst same
    rw [beq_self_eq_true] at remembered
    cases remembered
    exact ⟨m, found, merges⟩
  · rw [beq_false_of_ne same] at remembered
    exact sound other r remembered

/-- **A merge that remembers agrees with one that does not**, if it has remembered right so far and
    the models in the middle of which it is are below the model that is asked for. -/
theorem mergeNamed_agrees (distinct : (models.map (·.name)).Nodup) {name : String} {m : Model}
    (found : findModel? models name = some m) (sound : st.Sound models)
    (below : ∀ x ∈ st.visiting, TransGen (Extends models) x name) :
    Agrees models (mergeNamed models st name)
      (mergeModel models st.visiting m (mem_of_findModel? found)) := by
  -- while the super types of a model are merged, the model itself is among those in the middle
  refine mergeNamed.induct models
    (fun st name => ∀ m (found : findModel? models name = some m), st.Sound models →
      (∀ x ∈ st.visiting, TransGen (Extends models) x name) →
      Agrees models (mergeNamed models st name)
        (mergeModel models st.visiting m (mem_of_findModel? found)))
    (fun own st sofar bases => own ∈ models → (∀ base ∈ bases, base ∈ own.superTypes) →
      st.Sound models → (∀ x ∈ st.visiting, ReflTransGen (Extends models) x own.name) →
      Agrees models (mergeListed models own st sofar bases)
        (mergeBases models own st.visiting sofar bases))
    ?_ ?_ ?_ ?_ ?_ ?_ ?_ st name m found sound below
  · intro st name done remembered m found sound below
    obtain ⟨m', found', merges⟩ := sound name done remembered
    cases found.symm.trans found'
    have clear : ∀ x ∈ st.visiting, ¬ ReflTransGen (Extends models) m.name x := by
      intro x hx above
      have circle := TransGen.trans_right above (below x hx)
      rw [← name_of_findModel? found] at circle
      exact not_extends_self_of_mergeModel distinct merges circle
    rw [mergeNamed_of_remembered remembered, mergeModel_of_clear distinct merges clear]
    exact agrees_ok sound
  · intro st name _ missing m found
    cases missing.symm.trans found
  · intro st name forgotten _ _ again m found _ _
    have isName := name_of_findModel? found
    rw [mergeNamed_of_found forgotten found, if_pos again, mergeModel, dif_pos (isName ▸ again),
      isName]
    exact agrees_error _
  · intro st name forgotten m found new ih u found' sound below
    cases found.symm.trans found'
    obtain rfl := name_of_findModel? found
    have known := mem_of_findModel? found
    rw [mergeNamed_of_found forgotten found, if_neg new, mergeModel, dif_neg new]
    have below' : ∀ x ∈ (st.enter m.name).visiting, ReflTransGen (Extends models) x m.name := by
      intro x hx
      rcases List.mem_cons.1 hx with rfl | earlier
      · exact ReflTransGen.refl
      · exact (below x earlier).to_reflTransGen
    have bases := ih known (fun _ listed => listed) sound below'
    refine bases.bind fun after ok => ?_
    -- what the model merges to here, below others, it merges to on its own
    have inherits : mergeBases models m (m.name :: st.visiting) {} m.superTypes =
        .ok after.result := bases.eq_ok ok
    have here : mergeModel models st.visiting m known = .ok (m.withInherited after.result) := by
      rw [mergeModel, dif_neg new, inherits]
      rfl
    have alone : mergeModel models [] m known = .ok (m.withInherited after.result) :=
      mergeModel_of_clear distinct here (by simp)
    exact agrees_ok (sound_leave (bases.sound after ok) found alone)
  · intro own st sofar _ _ sound _
    rw [mergeListed, mergeBases]
    exact agrees_ok sound
  · intro own st sofar base bases isModel ih_base ih_rest known listed sound below
    obtain ⟨m, found⟩ := Option.isSome_iff_exists.1 isModel
    have step : Extends models own.name base := ⟨own, known, rfl, listed base List.mem_cons_self⟩
    have first := ih_base m found sound fun x hx => TransGen.tail' (below x hx) step
    rw [mergeListed, if_pos isModel, mergeBases_of_found found]
    refine first.bind fun after ok => ?_
    have rest := ih_rest after known (fun b hb => listed b (List.mem_cons_of_mem _ hb))
      (first.sound after ok) (after.visiting_eq ▸ below)
    rw [after.visiting_eq] at rest
    exact rest.followedBy
  · intro own st sofar base bases unknown _ _ _ _
    rw [mergeListed, if_neg unknown, mergeBases_of_missing (by simpa using unknown)]
    exact agrees_error _

end Agreement

/-! ## §3. All declarations -/

section Declarations

variable {models : List Model} {st : MergeState}

/-- **One turn**: the declaration is replaced by what it merges to from scratch, the others stay,
    and what is remembered stays right. -/
theorem mergeAt_eq (distinct : (models.map (·.name)).Nodup) (done rest : List Declaration)
    {decl : Declaration} (known : ∀ m ∈ decl.model?, m ∈ models) (sound : st.Sound models)
    (idle : st.visiting = []) :
    (∃ fault, mergeDeclaration models decl = .error fault ∧
      mergeAt models (done ++ decl :: rest, st) done.length = .error fault) ∨
    ∃ merged st', mergeDeclaration models decl = .ok merged ∧
      mergeAt models (done ++ decl :: rest, st) done.length = .ok (done ++ merged :: rest, st') ∧
      st'.Sound models ∧ st'.visiting = [] := by
  have here : (done ++ decl :: rest)[done.length]? = some decl := by simp
  unfold mergeAt
  simp only [here]
  cases decl with
  | enum e | datasource e | generator e => exact Or.inr ⟨_, st, rfl, rfl, sound, idle⟩
  | model m =>
    have isModel := known m rfl
    have found := findModel?_of_mem distinct isModel
    rw [mergeDeclaration_of_found found]
    by_cases rootless : m.superTypes = []
    · rw [mergeModel_of_rootless rootless List.not_mem_nil]
      simp only [rootless, List.isEmpty_nil, if_true]
      exact Or.inr ⟨_, st, rfl, rfl, sound, idle⟩
    · have listing : m.superTypes.isEmpty = false := by simpa using rootless
      simp only [listing]
      have agrees := mergeNamed_agrees distinct found sound (by simp [idle])
      rw [idle] at agrees
      rw [← agrees.result_eq]
      cases result : mergeNamed models st m.name with
      | error fault => exact Or.inl ⟨fault, rfl, rfl⟩
      | ok after =>
        refine Or.inr ⟨_, after.state, rfl, ?_, agrees.sound after result,
          after.visiting_eq.trans idle⟩
        show Except.ok ((done ++ .model m :: rest).set done.length (.model after.result), _) = _
        rw [List.set_append_right _ _ (Nat.le_refl _), Nat.sub_self]
        rfl

/-- The turns that are left, when the declarations `done` have had theirs. -/
theorem foldlM_mergeAt (distinct : (models.map (·.name)).Nodup) (done : List Declaration)
    {rest : List Declaration} (known : ∀ decl ∈ rest, ∀ m ∈ decl.model?, m ∈ models)
    (sound : st.Sound models) (idle : st.visiting = []) :
    (·.1) <$> (List.range' done.length rest.length).foldlM (mergeAt models) (done ++ rest, st) =
      (done ++ ·) <$> rest.mapM (mergeDeclaration models) := by
  induction rest generalizing done st with
  | nil => rfl
  | cons decl rest ih =>
    rw [List.length_cons, List.range'_succ, List.foldlM_cons, List.mapM_cons]
    rcases mergeAt_eq distinct done rest (known decl List.mem_cons_self) sound idle with
      ⟨fault, fails, stops⟩ | ⟨merged, st', ok, goes, sound', idle'⟩
    · rw [fails, stops]
      rfl
    · have next := ih (done ++ [merged]) (fun d hd => known d (List.mem_cons_of_mem _ hd))
        sound' idle'
      rw [List.length_append, List.length_singleton, List.append_assoc, List.singleton_append]
        at next
      rw [ok, goes]
      show (·.1) <$> (List.range' (done.length + 1) rest.length).foldlM (mergeAt models)
        (done ++ merged :: rest, st') = _
      rw [next]
      cases rest.mapM (mergeDeclaration models) with
      | error fault => rfl
      | ok mergedRest =>
        show Except.ok (done ++ [merged] ++ mergedRest) = .ok (done ++ merged :: mergedRest)
        rw [List.append_assoc, List.singleton_append]

/-- **The merge of a document is the merge of each declaration from scratch**, faults included:
    neither what was merged before nor the declarations that have been replaced already show. -/
theorem mergeInheritance_eq {decls : List Declaration}
    (distinct : ((modelsOf decls).map (·.name)).Nodup) :
    mergeInheritance decls = decls.mapM (mergeDeclaration (modelsOf decls)) := by
  have known : ∀ decl ∈ decls, ∀ m ∈ decl.model?, m ∈ modelsOf decls := by
    intro decl hdecl m hm
    exact List.mem_filterMap.2 ⟨decl, hdecl, hm⟩
  have nothing : MergeState.Sound (modelsOf decls) {} := by
    intro name r remembered
    cases remembered
  have turns := foldlM_mergeAt distinct [] known nothing rfl
  calc mergeInheritance decls
    _ = (·.1) <$> (List.range' 0 decls.length).foldlM (mergeAt (modelsOf decls)) (decls, {}) := by
      unfold mergeInheritance
      rw [List.range_eq_range', map_eq_pure_bind]
    _ = ([] ++ ·) <$> decls.mapM (mergeDeclaration (modelsOf decls)) := turns
    _ = decls.mapM (mergeDeclaration (modelsOf decls)) := id_map' _

end Declarations

end DelegateSchema
