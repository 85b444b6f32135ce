/-
  DelegateSchema.Proofs.Walks — both walks up the super types end, and they find the same.

  The ancestors of a model are collected along a queue that grows while it is read; a single
  ancestor is looked for along a stack.  Both are loops: a round takes one name off the list.  On
  every schema, also where super types run in a circle, both loops end, the queue brings the
  ancestors in the order of their distance, and the stack finds exactly those on the queue.

  Main results:
    * `ends_ancestorsFrom`, `ends_reaches` — the loops end with what the walks answer,
    * `Levelled` — what a round of the queue keeps: the names on it are one level of the lineage
      and part of the next, and everything nearer is found,
    * `ancestors_nearest_first` — the ancestors, each of them once, in the order of their distance,
    * `walks_agree` — what the stack finds is an ancestor, and the other way round.
-/
import DelegateSchema.Proofs.Resolution
import Mathlib.Order.Lattice.Nat

namespace DelegateSchema

/-! ## §1. Loops -/

/-- The loop that repeats `round` ends with a result, and `n` rounds come before the last one.  A
    round gives the state of the next, or the result. -/
inductive Ends {σ ρ : Type} (round : σ → σ ⊕ ρ) : Nat → σ → ρ → Prop
  | last {state : σ} {result : ρ} (h : round state = .inr result) : Ends round 0 state result
  | next {n : Nat} {state state' : σ} {result : ρ} (h : round state = .inl state')
      (rest : Ends round n state' result) : Ends round (n + 1) state result

namespace Schema

open Relation

variable {s : Schema}

/-- A round of the walk along the queue: the models found, the latest first, and the names to
    see. -/
def ancestorsRound (s : Schema) :
    List Model × List String → (List Model × List String) ⊕ List Model
  | (found, []) => .inr found.reverse
  | (found, name :: queue) =>
    if name ∈ found.map (·.name) then .inl (found, queue)
    else
      match s.model? name with
      | none => .inl (found, queue)
      | some base => .inl (base :: found, queue ++ base.superTypes)

/-- A round of the walk along the stack: the names seen and the names to see, the last one pushed
    first. -/
def reachesRound (s : Schema) (ancestor : String) :
    List String × List String → (List String × List String) ⊕ Bool
  | (_, []) => .inr false
  | (visited, name :: stack) =>
    if name = ancestor then .inr true
    else if name ∈ visited then .inl (visited, stack)
    else
      match s.model? name with
      | none => .inl (name :: visited, stack)
      | some base => .inl (name :: visited, base.superTypes.reverse ++ stack)

/-- **The walk along the queue ends**, after a round for each name that was on the queue at first
    or is listed by one of the models found on the way. -/
theorem ends_ancestorsFrom (s : Schema) (found : List Model) (queue : List String) :
    ∃ new, s.ancestorsFrom found queue = new ++ found ∧
      Ends s.ancestorsRound (queue.length + (new.flatMap (·.superTypes)).length) (found, queue)
        (s.ancestorsFrom found queue).reverse := by
  fun_induction ancestorsFrom s found queue with
  | case1 found => exact ⟨[], rfl, Ends.last rfl⟩
  | case2 found name queue known ih =>
    obtain ⟨new, result, ends⟩ := ih
    refine ⟨new, result, ?_⟩
    rw [List.length_cons, Nat.add_right_comm]
    exact Ends.next (by simp only [ancestorsRound, if_pos known]) ends
  | case3 found name queue unknown missing ih =>
    obtain ⟨new, result, ends⟩ := ih
    refine ⟨new, result, ?_⟩
    rw [List.length_cons, Nat.add_right_comm]
    exact Ends.next (by simp only [ancestorsRound, if_neg unknown, missing]) ends
  | case4 found name queue unknown base isModel ih =>
    obtain ⟨new, result, ends⟩ := ih
    refine ⟨new ++ [base], by rw [result, List.append_assoc]; rfl, ?_⟩
    -- the super types of the model join the queue, and each of them will take a round
    have rounds : (name :: queue).length + ((new ++ [base]).flatMap (·.superTypes)).length =
        (queue ++ base.superTypes).length + (new.flatMap (·.superTypes)).length + 1 := by
      simp only [List.flatMap_append, List.flatMap_singleton, List.length_append, List.length_cons]
      omega
    rw [rounds]
    exact Ends.next (by simp only [ancestorsRound, if_neg unknown, isModel]) ends

/-- The rounds of a whole walk are the names that the model and its ancestors list. -/
theorem ends_ancestors (s : Schema) (m : Model) :
    Ends s.ancestorsRound (m.superTypes ++ (s.ancestors m).flatMap (·.superTypes)).length
      ([], m.superTypes) (s.ancestors m) := by
  obtain ⟨new, result, ends⟩ := ends_ancestorsFrom s [] m.superTypes
  rw [List.append_nil] at result
  have rounds : ((s.ancestors m).flatMap (·.superTypes)).length =
      (new.flatMap (·.superTypes)).length := by
    unfold ancestors
    rw [result]
    exact ((List.reverse_perm new).flatMap_right _).length_eq
  rw [List.length_append, rounds]
  exact ends

/-- **The walk along the stack ends.** -/
theorem ends_reaches (s : Schema) (ancestor : String) (visited stack : List String) :
    ∃ n, Ends (s.reachesRound ancestor) n (visited, stack)
      (s.reaches ancestor visited stack) := by
  fun_induction reaches s ancestor visited stack with
  | case1 visited => exact ⟨0, Ends.last rfl⟩
  | case2 visited stack => exact ⟨0, Ends.last (by simp only [reachesRound, if_true])⟩
  | case3 visited name stack other seen ih =>
    obtain ⟨n, ends⟩ := ih
    exact ⟨n + 1, Ends.next (by simp only [reachesRound, if_neg other, if_pos seen]) ends⟩
  | case4 visited name stack other new missing ih =>
    obtain ⟨n, ends⟩ := ih
    exact ⟨n + 1, Ends.next (by simp only [reachesRound, if_neg other, if_neg new, missing]) ends⟩
  | case5 visited name stack other new base isModel ih =>
    obtain ⟨n, ends⟩ := ih
    exact ⟨n + 1, Ends.next (by simp only [reachesRound, if_neg other, if_neg new, isModel]) ends⟩

/-! ## §2. Distances -/

/-- `top` is reached from `name` by `n` super-type steps. -/
def StepsUp (s : Schema) : (n : Nat) → (name top : String) → Prop
  | 0, name, top => name = top
  | n + 1, name, top => ∃ base, s.StepsUp n name base ∧ s.Lists base top

/-- The number of steps of a shortest way up, of one step at least.  So the distance of a model
    from itself is the length of the shortest circle through it. -/
noncomputable def distance (s : Schema) (name top : String) : Nat :=
  sInf { n | 0 < n ∧ s.StepsUp n name top }

theorem below_iff_stepsUp {name top : String} :
    s.Below name top ↔ ∃ n, 0 < n ∧ s.StepsUp n name top := by
  constructor
  · intro below
    induction below with
    | single step => exact ⟨1, Nat.one_pos, name, rfl, step⟩
    | tail _ step ih =>
      obtain ⟨n, _, steps⟩ := ih
      exact ⟨n + 1, n.succ_pos, _, steps, step⟩
  · intro ⟨n, pos, steps⟩
    induction n generalizing top with
    | zero => exact absurd pos (Nat.lt_irrefl 0)
    | succ n ih =>
      obtain ⟨base, steps, step⟩ := steps
      rcases Nat.eq_zero_or_pos n with rfl | pos
      · rw [show name = base from steps]
        exact TransGen.single step
      · exact (ih pos steps).tail step

theorem distance_le {n : Nat} {name top : String} (pos : 0 < n) (steps : s.StepsUp n name top) :
    s.distance name top ≤ n :=
  Nat.sInf_le ⟨pos, steps⟩

/-- Where there is a way up, one is as short as the distance. -/
theorem stepsUp_distance {n : Nat} {name top : String} (pos : 0 < n)
    (steps : s.StepsUp n name top) :
    0 < s.distance name top ∧ s.StepsUp (s.distance name top) name top :=
  Nat.sInf_mem (s := { n | 0 < n ∧ s.StepsUp n name top }) ⟨n, pos, steps⟩

/-! ## §3. Level by level -/

/-- If a model has the name, it is found or still to see. -/
def Awaited (s : Schema) (found : List Model) (todo : List String) (name : String) : Prop :=
  (s.model? name).isSome = true → name ∈ found.map (·.name) ∨ name ∈ todo

/-- What the rounds of the walk from `start` keep: the queue holds names of one level of the
    lineage, in `now`, and behind them names of the level above, in `later`. -/
structure Levelled (s : Schema) (start : String) (level : Nat) (found : List Model)
    (now later : List String) : Prop where
  pos : 0 < level
  now_up : ∀ name ∈ now, s.StepsUp level start name
  later_up : ∀ name ∈ later, s.StepsUp (level + 1) start name
  models : ∀ x ∈ found, s.model? x.name = some x
  /-- All models of the levels below are found. -/
  nearer : ∀ n name, 0 < n → n < level → s.StepsUp n start name → s.Awaited found [] name
  /-- Those of this level are found or on the queue. -/
  here : ∀ name, s.StepsUp level start name → s.Awaited found now name
  /-- So are the super types of what is found. -/
  closed : ∀ x ∈ found, ∀ base ∈ x.superTypes, s.Awaited found (now ++ later) base
  within : ∀ x ∈ found, s.distance start x.name ≤ level
  /-- The latest comes first in `found`. -/
  ordered : found.Pairwise fun x y => s.distance start y.name ≤ s.distance start x.name

theorem Awaited.mono {found found' : List Model} {todo todo' : List String} {name : String}
    (h : s.Awaited found todo name) (more : ∀ x ∈ found, x ∈ found')
    (rest : ∀ n ∈ todo, n ∈ todo') : s.Awaited found' todo' name := by
  intro known
  rcases h known with old | listed
  · obtain ⟨x, hx, named⟩ := List.mem_map.1 old
    exact Or.inl (List.mem_map.2 ⟨x, more x hx, named⟩)
  · exact Or.inr (rest name listed)

/-- The first name can go when it is found, or when no model has it. -/
theorem Awaited.of_cons {found : List Model} {first : String} {todo : List String} {name : String}
    (h : s.Awaited found (first :: todo) name)
    (settled : (s.model? first).isSome = true → first ∈ found.map (·.name)) :
    s.Awaited found todo name := by
  intro known
  rcases h known with old | listed
  · exact Or.inl old
  · rcases List.mem_cons.1 listed with rfl | listed
    · exact Or.inl (settled known)
    · exact Or.inr listed

namespace Levelled

variable {start : String} {level : Nat} {found : List Model} {now later queue : List String}
  {name : String}

/-- The walk starts at the first level. -/
theorem first {m : Model} (h : s.model? m.name = some m) :
    s.Levelled m.name 1 [] m.superTypes [] where
  pos := Nat.one_pos
  now_up name listed := ⟨m.name, rfl, (lists_iff h).2 listed⟩
  later_up _ h := nomatch h
  models _ h := nomatch h
  nearer n name pos below := by omega
  here name steps := by
    obtain ⟨_, rfl, step⟩ := steps
    exact fun _ => Or.inr ((lists_iff h).1 step)
  closed _ h := nomatch h
  within _ h := nomatch h
  ordered := List.Pairwise.nil

/-- When a level is done, the next one is on the queue. -/
theorem advance (h : s.Levelled start level found [] later) :
    s.Levelled start (level + 1) found later [] where
  pos := Nat.succ_pos level
  now_up := h.later_up
  later_up _ h := nomatch h
  models := h.models
  nearer n name pos below steps := by
    rcases Nat.lt_succ_iff_lt_or_eq.1 below with nearer | rfl
    · exact h.nearer n name pos nearer steps
    · exact h.here name steps
  here name steps := by
    -- the model one step below was found at this level, and its super types are on the queue
    obtain ⟨base, steps, step⟩ := steps
    have known : (s.model? base).isSome = true := by
      obtain ⟨_, isModel, _⟩ := step
      rw [isModel]
      rfl
    rcases h.here base steps known with old | none
    · obtain ⟨x, hx, rfl⟩ := List.mem_map.1 old
      exact h.closed x hx name ((lists_iff (h.models x hx)).1 step)
    · cases none
  closed x hx base listed := by
    rw [List.append_nil]
    exact h.closed x hx base listed
  within x hx := Nat.le_succ_of_le (h.within x hx)
  ordered := h.ordered

/-- A name that is found already, or that no model has, can be passed over. -/
theorem skip (h : s.Levelled start level found (name :: now) later)
    (settled : (s.model? name).isSome = true → name ∈ found.map (·.name)) :
    s.Levelled start level found now later where
  pos := h.pos
  now_up name' listed := h.now_up name' (List.mem_cons_of_mem _ listed)
  later_up := h.later_up
  models := h.models
  nearer := h.nearer
  here name' steps := (h.here name' steps).of_cons settled
  closed x hx base listed := (h.closed x hx base listed).of_cons settled
  within := h.within
  ordered := h.ordered

/-- A model found for the first time is at the distance of its level: were it nearer, it would
    have been found before. -/
theorem distance_eq (h : s.Levelled start level found (name :: now) later)
    (new : name ∉ found.map (·.name)) (known : (s.model? name).isSome = true) :
    s.distance start name = level := by
  have steps := h.now_up name List.mem_cons_self
  refine Nat.le_antisymm (distance_le h.pos steps) ?_
  obtain ⟨pos, shortest⟩ := stepsUp_distance h.pos steps
  by_contra nearer
  rcases h.nearer _ name pos (Nat.lt_of_not_le nearer) shortest known with old | none
  · exact new old
  · cases none

/-- A new model is found, and its super types are one level further up. -/
theorem find {base : Model} (h : s.Levelled start level found (name :: now) later)
    (new : name ∉ found.map (·.name)) (isModel : s.model? name = some base) :
    s.Levelled start level (base :: found) now (later ++ base.superTypes) := by
  have named : base.name = name := name_of_findModel? isModel
  have known : (s.model? name).isSome = true := by rw [isModel]; rfl
  have distance := h.distance_eq new known
  have more : ∀ x ∈ found, x ∈ base :: found := fun x => List.mem_cons_of_mem base
  have isFound : name ∈ (base :: found).map (·.name) := by
    rw [← named]
    exact List.mem_map_of_mem List.mem_cons_self
  -- what waited for the name of the model has found it, so the name can leave the queue
  exact {
    pos := h.pos
    now_up := fun name' listed => h.now_up name' (List.mem_cons_of_mem _ listed)
    later_up := by
      intro name' listed
      rcases List.mem_append.1 listed with old | above
      · exact h.later_up name' old
      · exact ⟨name, h.now_up name List.mem_cons_self, base, isModel, above⟩
    models := List.forall_mem_cons.2 ⟨named ▸ isModel, h.models⟩
    nearer := fun n name' pos below steps =>
      (h.nearer n name' pos below steps).mono more fun _ none => nomatch none
    here := fun name' steps =>
      ((h.here name' steps).mono more fun _ listed => listed).of_cons fun _ => isFound
    closed := by
      rw [List.forall_mem_cons, ← List.append_assoc]
      refine ⟨?_, ?_⟩
      · intro above listed _
        exact Or.inr (List.mem_append_right _ listed)
      · intro x hx above listed
        exact ((h.closed x hx above listed).mono more fun _ =>
          List.mem_append_left base.superTypes).of_cons fun _ => isFound
    within := List.forall_mem_cons.2 ⟨by rw [named, distance], h.within⟩
    ordered := by
      refine List.pairwise_cons.2 ⟨?_, h.ordered⟩
      intro x hx
      rw [named, distance]
      exact h.within x hx }

/-- The first name on the queue belongs to the level that the walk is at, or else the walk goes on
    to the next level, which begins with that name. -/
theorem exists_cons (h : s.Levelled start level found now later)
    (split : name :: queue = now ++ later) :
    ∃ level' now' later', s.Levelled start level' found (name :: now') later' ∧
      queue = now' ++ later' := by
  cases now with
  | nil =>
    rw [List.nil_append] at split
    subst split
    exact ⟨level + 1, queue, [], h.advance, (List.append_nil queue).symm⟩
  | cons first now =>
    cases split
    exact ⟨level, now, later, h, rfl⟩

end Levelled

/-- **The queue brings the models in the order of their distance.**  The induction is on the walk:
    every round keeps `Levelled`. -/
theorem pairwise_ancestorsFrom {start : String} {level : Nat} {found : List Model}
    {now later queue : List String} (h : s.Levelled start level found now later)
    (split : queue = now ++ later) :
    (s.ancestorsFrom found queue).Pairwise fun x y =>
      s.distance start y.name ≤ s.distance start x.name := by
  fun_induction ancestorsFrom s found queue generalizing level now later with
  | case1 found => exact h.ordered
  | case2 found name queue known ih =>
    obtain ⟨_, _, _, h, split⟩ := h.exists_cons split
    exact ih (h.skip fun _ => known) split
  | case3 found name queue unknown missing ih =>
    obtain ⟨_, _, _, h, split⟩ := h.exists_cons split
    refine ih (h.skip fun known => ?_) split
    rw [missing] at known
    cases known
  | case4 found name queue unknown base isModel ih =>
    obtain ⟨_, _, _, h, split⟩ := h.exists_cons split
    exact ih (h.find unknown isModel) (by rw [split, List.append_assoc])

/-- No model is found twice. -/
theorem nodup_ancestorsFrom (s : Schema) (found : List Model) (queue : List String)
    (distinct : (found.map (·.name)).Nodup) :
    ((s.ancestorsFrom found queue).map (·.name)).Nodup := by
  fun_induction ancestorsFrom s found queue with
  | case1 found => exact distinct
  | case2 found name queue known ih => exact ih distinct
  | case3 found name queue unknown missing ih => exact ih distinct
  | case4 found name queue unknown base isModel ih =>
    refine ih ?_
    rw [List.map_cons, name_of_findModel? isModel]
    exact List.nodup_cons.2 ⟨unknown, distinct⟩

theorem mem_ancestors_iff (distinct : s.modelNames.Nodup) {m : Model} (hm : m ∈ s.models)
    (x : Model) : x ∈ s.ancestors m ↔ x ∈ s.models ∧ s.Below m.name x.name := by
  rw [mem_ancestors (model?_of_mem distinct hm)]
  exact and_congr_left fun _ => ⟨mem_of_findModel?, model?_of_mem distinct⟩

/-- **The ancestors of a model are the models above it, nearest first.**  In every schema whose
    model names are distinct the walk ends, after as many rounds as the model and its ancestors
    list names; it finds the models above `m`, at one step or more, and no others; it finds none of
    them twice; and none comes before one that is nearer.  Super types may run in circles. -/
theorem ancestors_nearest_first (distinct : s.modelNames.Nodup) {m : Model} (hm : m ∈ s.models) :
    Ends s.ancestorsRound (m.superTypes ++ (s.ancestors m).flatMap (·.superTypes)).length
      ([], m.superTypes) (s.ancestors m) ∧
    (∀ x, x ∈ s.ancestors m ↔ x ∈ s.models ∧ ∃ n, 0 < n ∧ s.StepsUp n m.name x.name) ∧
    ((s.ancestors m).map (·.name)).Nodup ∧
    (s.ancestors m).Pairwise fun x y =>
      s.distance m.name x.name ≤ s.distance m.name y.name := by
  have start := Levelled.first (model?_of_mem distinct hm)
  refine ⟨ends_ancestors s m, ?_, ?_, ?_⟩
  · intro x
    rw [mem_ancestors_iff distinct hm, below_iff_stepsUp]
  · unfold ancestors
    rw [List.map_reverse, List.nodup_reverse]
    exact nodup_ancestorsFrom s [] m.superTypes List.nodup_nil
  · unfold ancestors
    rw [List.pairwise_reverse]
    exact pairwise_ancestorsFrom start (List.append_nil _).symm

/-- Roles of a flattened document whose super types run in a circle. -/
def roles : Document where
  flattened := true
  declarations := [
    .model { name := "Admin", superTypes := ["User", "Auditor"] },
    .model { name := "User", superTypes := ["Person"] },
    .model { name := "Auditor", isAbstract := true, superTypes := ["Person", "User"] },
    .model { name := "Person", superTypes := ["Admin"] }]

/-- An administrator is above itself, but further away than all others. -/
theorem admin_nearest_first :
    ∃ (s : Schema) (admin : Model), ofDocument roles = .ok s ∧ s.modelNames.Nodup ∧
      s.model? "Admin" = some admin ∧
      (s.ancestors admin).map (·.name) = ["User", "Auditor", "Person", "Admin"] ∧
      Ends s.ancestorsRound 8 ([], admin.superTypes) (s.ancestors admin) ∧
      (s.ancestors admin).Pairwise fun x y =>
        s.distance "Admin" x.name ≤ s.distance "Admin" y.name := by
  have resolves : (ofDocument roles).toOption.any (fun s =>
      decide s.modelNames.Nodup && (s.model? "Admin").any fun admin =>
        (s.ancestors admin).map (·.name) == ["User", "Auditor", "Person", "Admin"] &&
        (admin.superTypes ++ (s.ancestors admin).flatMap (·.superTypes)).length == 8) = true := by
    decide +kernel
  simp only [Option.any_eq_true, Bool.and_eq_true, decide_eq_true_eq, beq_iff_eq] at resolves
  obtain ⟨s, resolved, distinct, admin, isModel, names, rounds⟩ := resolves
  obtain ⟨ends, _, _, ordered⟩ := ancestors_nearest_first distinct (mem_of_findModel? isModel)
  rw [rounds] at ends
  rw [name_of_findModel? isModel] at ordered
  exact ⟨s, admin, eq_ok_of_toOption resolved, distinct, isModel, names, ends, ordered⟩

/-! ## §4. The two walks -/

theorem isDescendantOf_iff_mem_ancestors (distinct : s.modelNames.Nodup) {m a : Model}
    (hm : m ∈ s.models) (ha : a ∈ s.models) :
    s.isDescendantOf m a.name = true ↔ a ∈ s.ancestors m := by
  rw [isDescendantOf_iff (model?_of_mem distinct hm), mem_ancestors_iff distinct hm]
  exact (and_iff_right ha).symm

theorem mem_descendants_iff (distinct : s.modelNames.Nodup) {a : Model} (ha : a ∈ s.models)
    (m : Model) :
    m ∈ s.descendants a ↔ m ∈ s.models ∧ m.isAbstract = false ∧ a ∈ s.ancestors m := by
  unfold descendants
  rw [List.mem_filter, Bool.and_eq_true, Bool.not_eq_true']
  exact and_congr_right fun hm =>
    and_congr_right fun _ => isDescendantOf_iff_mem_ancestors distinct hm ha

/-- A super type that a model lists is an ancestor of it. -/
theorem mem_descendants_of_directSubtypes (distinct : s.modelNames.Nodup) {a m : Model}
    (ha : a ∈ s.models) (h : m ∈ s.directSubtypes a) : m ∈ s.descendants a := by
  unfold directSubtypes at h
  simp only [List.mem_filter, Bool.and_eq_true, Bool.not_eq_true', List.contains_iff_mem] at h
  obtain ⟨hm, ⟨concrete, _⟩, listed⟩ := h
  have step : s.Lists m.name a.name := (lists_iff (model?_of_mem distinct hm)).2 listed
  refine (mem_descendants_iff distinct ha m).2 ⟨hm, concrete, ?_⟩
  exact (mem_ancestors_iff distinct hm a).2 ⟨ha, TransGen.single step⟩

/-- **The two walks agree.**  In the schema of every document that resolves, flattened ones with
    circles included, the search for the ancestor `a` of a model ends, and it finds `a` exactly when
    `a` is among the ancestors that are collected.  So the descendants of `a` are the concrete
    models that have `a` among their ancestors, in source order and each of them once, and all
    direct subtypes are among them. -/
theorem walks_agree {d : Document} (resolved : ofDocument d = .ok s) {a : Model}
    (ha : a ∈ s.models) :
    (∀ m ∈ s.models,
      (∃ n, Ends (s.reachesRound a.name) n ([], m.superTypes.reverse)
        (s.isDescendantOf m a.name)) ∧
      (s.isDescendantOf m a.name = true ↔ a ∈ s.ancestors m)) ∧
    (s.descendants a).Sublist s.models ∧ (s.descendants a).Nodup ∧
    (∀ m, m ∈ s.descendants a ↔ m ∈ s.models ∧ m.isAbstract = false ∧ a ∈ s.ancestors m) ∧
    ∀ m ∈ s.directSubtypes a, m ∈ s.descendants a := by
  have distinct := modelNames_nodup_of_ofDocument resolved
  have inOrder : (s.descendants a).Sublist s.models := List.filter_sublist
  refine ⟨?_, inOrder, (List.Nodup.of_map _ distinct).sublist inOrder,
    mem_descendants_iff distinct ha, fun m => mem_descendants_of_directSubtypes distinct ha⟩
  intro m hm
  exact ⟨ends_reaches s a.name [] m.superTypes.reverse,
    isDescendantOf_iff_mem_ancestors distinct hm ha⟩

/-- On the circle of roles every concrete role is below a person, a person included, though only
    users say so themselves. -/
theorem person_walks_agree :
    ∃ (s : Schema) (person : Model), ofDocument roles = .ok s ∧
      s.model? "Person" = some person ∧
      (s.directSubtypes person).map (·.name) = ["User"] ∧
      (s.descendants person).map (·.name) = ["Admin", "User", "Person"] ∧
      (∀ m ∈ s.models,
        (∃ n, Ends (s.reachesRound person.name) n ([], m.superTypes.reverse)
          (s.isDescendantOf m person.name)) ∧
        (s.isDescendantOf m person.name = true ↔ person ∈ s.ancestors m)) ∧
      ∀ m, m ∈ s.descendants person ↔
        m ∈ s.models ∧ m.isAbstract = false ∧ person ∈ s.ancestors m := by
  have resolves : (ofDocument roles).toOption.any (fun s =>
      (s.model? "Person").any fun person =>
        (s.directSubtypes person).map (·.name) == ["User"] &&
        (s.descendants person).map (·.name) == ["Admin", "User", "Person"]) = true := by
    decide +kernel
  simp only [Option.any_eq_true, Bool.and_eq_true, beq_iff_eq] at resolves
  obtain ⟨s, resolved, person, isModel, direct, below⟩ := resolves
  have resolved := eq_ok_of_toOption resolved
  obtain ⟨agree, _, _, members, _⟩ := walks_agree resolved (mem_of_findModel? isModel)
  exact ⟨s, person, resolved, isModel, direct, below, agree, members⟩

end Schema

end DelegateSchema
