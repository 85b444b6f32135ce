/-
  DelegateSchema.Proofs.Identifiers — one answer for every name.

  A computation that asks for identifiers is run with a memory that grows at every question.  The
  memory it ends with answers every question of the run in the same way again, so the run gives
  what the computation gives when a fixed function answers:

      (x.run m).1 = x.answer (x.run m).2.shorten

  Main results:
    * `Memory.shorten_of_grows` — a known name keeps its answer while the memory grows,
    * `Asking.run_fst` — the run of a memory is a run without one,
    * `Compile.answer` with its laws — a compilation under fixed answers is a computation in
      `Except`, and answering goes through `bind`, `mapM` and `foldlM`.
-/
import DelegateSchema.Compile.Basic
import Mathlib.Data.List.Forall2

namespace DelegateSchema

namespace Identifier

/-! ## §1. Memories that grow -/

namespace Memory

/-- `m'` remembers what `m` does, and maybe more that was asked for later. -/
structure Grows (m m' : Memory) : Prop where
  budget : m'.budget = m.budget
  long : m.long <+: m'.long

theorem Grows.refl (m : Memory) : Grows m m :=
  ⟨rfl, List.prefix_refl m.long⟩

theorem Grows.trans {m₁ m₂ m₃ : Memory} (h : Grows m₁ m₂) (h' : Grows m₂ m₃) : Grows m₁ m₃ :=
  ⟨h'.budget.trans h.budget, h.long.trans h'.long⟩

/-- Whether the memory has a settled answer for a name. -/
def Knows (m : Memory) (name : String) : Prop :=
  m.fits name = true ∨ name ∈ m.long

theorem grows_remember (m : Memory) (name : String) : Grows m (m.remember name) := by
  unfold remember
  split
  · exact Grows.refl m
  · exact ⟨rfl, List.prefix_append m.long [name]⟩

theorem knows_remember (m : Memory) (name : String) : (m.remember name).Knows name := by
  unfold remember
  split
  next h =>
    rcases Bool.or_eq_true _ _ ▸ h with fits | known
    · exact Or.inl fits
    · exact Or.inr (List.contains_iff_mem.1 known)
  next => exact Or.inr (by simp)

/-- **A known name keeps its answer.**  The names of one beginning are numbered in the order in
    which they were asked for, and a growing memory adds names behind them. -/
theorem shorten_of_grows {m m' : Memory} {name : String} (h : Grows m m') (known : m.Knows name) :
    m'.shorten name = m.shorten name := by
  have fits_eq : m'.fits name = m.fits name := by simp only [fits, h.budget]
  have cut_eq : m'.cut = m.cut := by
    funext other
    simp only [cut, h.budget]
  unfold shorten
  rw [fits_eq, cut_eq]
  split
  next => rfl
  next long =>
    have old : name ∈ m.long := known.resolve_left long
    obtain ⟨added, grown⟩ := h.long
    have same : m'.number name = m.number name := by
      unfold number
      rw [cut_eq, ← grown, List.filter_append]
      exact List.idxOf_append_of_mem (List.mem_filter.2 ⟨old, by simp⟩)
    rw [same]

/-- Asking for a name answers as the memory before the question would. -/
theorem shorten_remember (m : Memory) (name : String) :
    (m.remember name).shorten name = m.shorten name := by
  by_cases known : m.Knows name
  · exact shorten_of_grows (grows_remember m name) known
  · have long : m.fits name = false := by
      cases h : m.fits name with
      | true => exact absurd (Or.inl h) known
      | false => rfl
    have new : name ∉ m.long := fun h => known (Or.inr h)
    -- the name goes behind all others of its beginning, where a search that fails would stop
    have grown : m.remember name = { m with long := m.long ++ [name] } := by
      simp [remember, long, new]
    have first : (m.long.filter fun other => m.cut other == m.cut name).idxOf name
        = (m.long.filter fun other => m.cut other == m.cut name).length :=
      List.idxOf_eq_length fun h => new (List.mem_filter.1 h).1
    have number_eq : (m.remember name).number name = m.number name := by
      rw [grown]
      show (List.filter (fun other => m.cut other == m.cut name) (m.long ++ [name])).idxOf name
        = (m.long.filter fun other => m.cut other == m.cut name).idxOf name
      rw [List.filter_append, List.idxOf_append_of_notMem fun h => new (List.mem_filter.1 h).1,
        first]
      simp
    have fits_eq : (m.remember name).fits name = false := by
      rw [grown]
      exact long
    have cut_eq : (m.remember name).cut name = m.cut name := by
      rw [grown]
      rfl
    unfold shorten
    rw [fits_eq, long, cut_eq, number_eq]

/-- What the memory answers when it is asked for the identifier of a name. -/
def identifier (m : Memory) (name : String) : String :=
  ((Asking.identifier name).run m).1

theorem identifier_eq (m : Memory) (name : String) :
    m.identifier name = ofShort (m.shorten name) := by
  show ofShort ((m.remember name).shorten name) = _
  rw [shorten_remember]

end Memory

/-! ## §2. Runs and answers -/

namespace Asking

variable {α β : Type}

theorem grows_run (x : Asking α) (m : Memory) : Memory.Grows m (x.run m).2 := by
  induction x generalizing m with
  | done value => exact Memory.Grows.refl m
  | ask name next ih => exact (Memory.grows_remember m name).trans (ih _ (m.remember name))

/-- **A run with a memory is a run with fixed answers**, those of the memory it ends with. -/
theorem run_fst (x : Asking α) (m : Memory) : (x.run m).1 = x.answer (x.run m).2.shorten := by
  induction x generalizing m with
  | done value => rfl
  | ask name next ih =>
    show ((next ((m.remember name).shorten name)).run (m.remember name)).1
      = (next (((next ((m.remember name).shorten name)).run
          (m.remember name)).2.shorten name)).answer _
    rw [Memory.shorten_of_grows (grows_run _ _) (Memory.knows_remember m name)]
    exact ih _ (m.remember name)

variable (shortOf : String → String)

@[simp]
theorem answer_pure (value : α) : (pure value : Asking α).answer shortOf = value := rfl

@[simp]
theorem answer_bind (x : Asking α) (f : α → Asking β) :
    (x >>= f).answer shortOf = (f (x.answer shortOf)).answer shortOf := by
  show (x.bind f).answer shortOf = _
  induction x with
  | done value => rfl
  | ask name next ih => exact ih (shortOf name)

@[simp]
theorem answer_map (f : α → β) (x : Asking α) :
    (f <$> x).answer shortOf = f (x.answer shortOf) :=
  answer_bind shortOf x fun a => pure (f a)

@[simp]
theorem answer_identifier (name : String) :
    (identifier name).answer shortOf = ofShort (shortOf name) := rfl

theorem bind_done (x : Asking α) : x.bind .done = x := by
  induction x with
  | done value => rfl
  | ask name next ih => exact congrArg (ask name) (funext ih)

theorem bind_bind {γ : Type} (x : Asking α) (f : α → Asking β) (g : β → Asking γ) :
    (x.bind f).bind g = x.bind fun a => (f a).bind g := by
  induction x with
  | done value => rfl
  | ask name next ih => exact congrArg (ask name) (funext ih)

instance : LawfulMonad Asking :=
  LawfulMonad.mk' Asking bind_done (fun _ _ => rfl) bind_bind

theorem answer_mapM (f : α → Asking β) (xs : List α) :
    (xs.mapM f).answer shortOf = xs.map fun x => (f x).answer shortOf := by
  induction xs with
  | nil => simp
  | cons x xs ih => simp [List.mapM_cons, ih]

theorem answer_foldlM (f : β → α → Asking β) (init : β) (xs : List α) :
    (xs.foldlM f init).answer shortOf = xs.foldl (fun b x => (f b x).answer shortOf) init := by
  induction xs generalizing init with
  | nil => simp
  | cons x xs ih => simp [List.foldlM_cons, ih]

end Asking

end Identifier

/-! ## §3. Compilations under fixed answers -/

namespace Compile

variable {α β : Type} (shortOf : String → String)

/-- A compilation whose questions are answered by a fixed function. -/
def answer (shortOf : String → String) (x : Compile α) : Except CompileError α :=
  Identifier.Asking.answer shortOf x.run

@[simp]
theorem answer_pure (value : α) : (pure value : Compile α).answer shortOf = .ok value := rfl

@[simp]
theorem answer_bind (x : Compile α) (f : α → Compile β) :
    (x >>= f).answer shortOf = x.answer shortOf >>= fun a => (f a).answer shortOf := by
  unfold answer
  rw [ExceptT.run_bind, Identifier.Asking.answer_bind]
  cases Identifier.Asking.answer shortOf x.run with
  | ok value => rfl
  | error fault => rfl

@[simp]
theorem answer_map (f : α → β) (x : Compile α) :
    (f <$> x).answer shortOf = f <$> x.answer shortOf := by
  rw [← bind_pure_comp, answer_bind, ← bind_pure_comp]
  rfl

@[simp]
theorem answer_lift (x : Identifier.Asking α) :
    Compile.answer shortOf (ExceptT.lift x) = .ok (x.answer shortOf) :=
  Identifier.Asking.answer_bind shortOf x (fun a => pure (Except.ok a))

@[simp]
theorem answer_identifier (name : String) :
    (Compile.identifier name).answer shortOf = .ok (Identifier.ofShort (shortOf name)) :=
  answer_lift shortOf (Identifier.Asking.identifier name)

@[simp]
theorem answer_ofExcept (x : Except CompileError α) :
    (Compile.ofExcept x).answer shortOf = x := rfl

theorem answer_mapM (f : α → Compile β) (xs : List α) :
    (xs.mapM f).answer shortOf = xs.mapM fun x => (f x).answer shortOf := by
  induction xs with
  | nil => rfl
  | cons x xs ih => simp [List.mapM_cons, ih]

theorem answer_foldlM (f : β → α → Compile β) (init : β) (xs : List α) :
    (xs.foldlM f init).answer shortOf
      = xs.foldlM (fun b x => (f b x).answer shortOf) init := by
  induction xs generalizing init with
  | nil => rfl
  | cons x xs ih => simp [List.foldlM_cons, ih]

end Compile

/-! ## §4. Computations that may fail -/

section Failing

variable {ε α β : Type}

theorem pure_ok_iff {a b : α} : (pure a : Except ε α) = .ok b ↔ b = a := by
  constructor
  · intro h
    exact (Except.ok.inj h).symm
  · intro same
    rw [same]
    rfl

theorem bind_ok_iff {x : Except ε α} {f : α → Except ε β} {b : β} :
    x >>= f = .ok b ↔ ∃ a, x = .ok a ∧ f a = .ok b := by
  cases x with
  | ok a => simp [bind, Except.bind]
  | error e => simp [bind, Except.bind]

theorem map_ok_iff {x : Except ε α} {f : α → β} {b : β} :
    f <$> x = .ok b ↔ ∃ a, x = .ok a ∧ f a = b := by
  cases x with
  | error e => simp
  | ok a => simp

theorem eq_ok_of_toOption {x : Except ε α} {a : α} (h : x.toOption = some a) : x = .ok a := by
  cases x with
  | ok b => exact congrArg Except.ok (Option.some.inj h)
  | error e => cases h

theorem mapError_ok_iff {ε' : Type} {f : ε → ε'} {x : Except ε α} {a : α} :
    x.mapError f = .ok a ↔ x = .ok a := by
  cases x <;> simp [Except.mapError]

theorem mapM_ok_iff {f : α → Except ε β} {xs : List α} {ys : List β} :
    xs.mapM f = .ok ys ↔ List.Forall₂ (fun x y => f x = .ok y) xs ys := by
  induction xs generalizing ys with
  | nil =>
    rw [List.mapM_nil, List.forall₂_nil_left_iff, pure_ok_iff]
  | cons x xs ih =>
    rw [List.mapM_cons, bind_ok_iff, List.forall₂_cons_left_iff]
    constructor
    · intro ⟨y, first, rest⟩
      obtain ⟨ys', later, same⟩ := bind_ok_iff.1 rest
      exact ⟨y, ys', first, ih.1 later, pure_ok_iff.1 same⟩
    · intro ⟨y, ys', first, later, same⟩
      rw [same]
      exact ⟨y, first, bind_ok_iff.2 ⟨ys', ih.2 later, rfl⟩⟩

theorem exists_mapM_ok_iff {f : α → Except ε β} {xs : List α} :
    (∃ ys, xs.mapM f = .ok ys) ↔ ∀ x ∈ xs, ∃ y, f x = .ok y := by
  simp only [mapM_ok_iff]
  induction xs with
  | nil => simp
  | cons x xs ih =>
    rw [List.forall_mem_cons, ← ih]
    constructor
    · intro ⟨_, all⟩
      cases all with
      | cons first rest => exact ⟨⟨_, first⟩, _, rest⟩
    · intro ⟨⟨y, first⟩, ys, rest⟩
      exact ⟨y :: ys, List.Forall₂.cons first rest⟩

theorem forM_ok_iff {f : α → Except ε Unit} {xs : List α} :
    xs.forM f = .ok () ↔ ∀ x ∈ xs, f x = .ok () := by
  induction xs with
  | nil => exact iff_of_true rfl (by simp)
  | cons x xs ih =>
    show f x >>= (fun _ => xs.forM f) = .ok () ↔ _
    rw [bind_ok_iff, Unique.exists_iff, List.forall_mem_cons, ← ih]

/-- A computation in two steps succeeds where both do, if the second one succeeds after any result
    of the first or after none. -/
theorem exists_bind_ok_iff {x : Except ε α} {f : α → Except ε β} {P : Prop}
    (rest : ∀ a, (∃ b, f a = .ok b) ↔ P) :
    (∃ b, x >>= f = .ok b) ↔ (∃ a, x = .ok a) ∧ P := by
  constructor
  · intro ⟨b, h⟩
    obtain ⟨a, first, second⟩ := bind_ok_iff.1 h
    exact ⟨⟨a, first⟩, (rest a).1 ⟨b, second⟩⟩
  · intro ⟨⟨a, first⟩, holds⟩
    obtain ⟨b, second⟩ := (rest a).2 holds
    exact ⟨b, bind_ok_iff.2 ⟨a, first, second⟩⟩

theorem bind_error {x : Except ε α} {f : α → Except ε β} {e : ε} (h : x >>= f = .error e) :
    x = .error e ∨ ∃ a, x = .ok a ∧ f a = .error e := by
  cases x with
  | ok a => exact Or.inr ⟨a, rfl, h⟩
  | error e' => exact Or.inl (congrArg Except.error (Except.error.inj h))

/-- Where a list fails, one of its elements does. -/
theorem exists_of_mapM_error {f : α → Except ε β} {xs : List α} {e : ε}
    (h : xs.mapM f = .error e) : ∃ x ∈ xs, f x = .error e := by
  induction xs with
  | nil => cases h
  | cons x xs ih =>
    rw [List.mapM_cons] at h
    rcases bind_error h with first | ⟨_, _, h⟩
    · exact ⟨x, List.mem_cons_self, first⟩
    · rcases bind_error h with later | ⟨_, _, h⟩
      · obtain ⟨x', hx', fails⟩ := ih later
        exact ⟨x', List.mem_cons_of_mem _ hx', fails⟩
      · cases h

/-- What every step of a fold keeps, the whole fold keeps. -/
theorem foldlM_ok_inv {f : β → α → Except ε β} {P : β → Prop} {xs : List α} {b b' : β}
    (h : xs.foldlM f b = .ok b') (start : P b)
    (step : ∀ x ∈ xs, ∀ b b', P b → f b x = .ok b' → P b') : P b' := by
  induction xs generalizing b with
  | nil =>
    cases pure_ok_iff.1 h
    exact start
  | cons x xs ih =>
    obtain ⟨c, first, rest⟩ := bind_ok_iff.1 h
    exact ih rest (step x List.mem_cons_self b c start first)
      fun y hy => step y (List.mem_cons_of_mem _ hy)

/-- What one step of a fold brings about and every step keeps holds in the end. -/
theorem foldlM_ok_of_mem {f : β → α → Except ε β} {P : β → Prop} {xs : List α} {b b' : β}
    (h : xs.foldlM f b = .ok b') {x : α} (hx : x ∈ xs) (start : ∀ b b', f b x = .ok b' → P b')
    (step : ∀ x ∈ xs, ∀ b b', P b → f b x = .ok b' → P b') : P b' := by
  obtain ⟨before, after, rfl⟩ := List.append_of_mem hx
  rw [List.foldlM_append] at h
  obtain ⟨c, _, h⟩ := bind_ok_iff.1 h
  obtain ⟨c', here, rest⟩ := bind_ok_iff.1 h
  refine foldlM_ok_inv rest (start c c' here) ?_
  intro y hy
  exact step y (List.mem_append_right _ (List.mem_cons_of_mem _ hy))

/-- Where every step adds to the end of a list, the fold adds the additions one after another. -/
theorem foldlM_ok_append {γ : Type} {f : β → α → Except ε β} (view : β → List γ)
    {added : α → List γ} {xs : List α} {b b' : β} (h : xs.foldlM f b = .ok b')
    (step : ∀ b x b', f b x = .ok b' → view b' = view b ++ added x) :
    view b' = view b ++ xs.flatMap added := by
  induction xs generalizing b with
  | nil =>
    cases pure_ok_iff.1 h
    simp
  | cons x xs ih =>
    obtain ⟨c, first, rest⟩ := bind_ok_iff.1 h
    rw [ih rest, step b x c first, List.flatMap_cons, List.append_assoc]

end Failing

end DelegateSchema
