/-
  DelegateSchema.Proofs.Truncation — a compilation does not see that names are shortened.

  The memory of identifiers grows through all models and passes of a build.  Nothing of this shows:
  the build gives what the same passes give when one fixed function shortens every name, and the
  function never gives two names of the build one short form.  So a build can be repeated on the
  memory that it left, also when it failed halfway.

  Main results:
    * `Memory.shorten_injOn` — a memory tells apart all names that it knows,
    * `Asking.asked_eq` — the questions of a run with a memory are those of the run with fixed
      answers, and each of them got the answer that the final memory gives,
    * `truncation_transparent` — both for a whole build,
    * `Asking.run_of_grows` — a run can be repeated on any memory that has grown from the one it
      left,
    * `rebuild_gives_same` — so a second build gives what the first one gave.
-/
import DelegateSchema.Compile.Build
import DelegateSchema.Proofs.Identifiers
import Mathlib.Data.Set.Function

namespace DelegateSchema

namespace Identifier

/-! ## §1. Short forms of different names -/

namespace Memory

variable {m : Memory} {name other : String}

theorem Grows.knows {m m' : Memory} (h : Grows m m') (known : m.Knows name) : m'.Knows name := by
  rcases known with fits | old
  · exact Or.inl (by simpa only [fits, Memory.fits, h.budget] using fits)
  · exact Or.inr (h.long.subset old)

/-- Asking for a known name again leaves the memory as it is. -/
theorem remember_of_knows (known : m.Knows name) : m.remember name = m := by
  unfold remember
  refine if_pos ?_
  rw [Bool.or_eq_true, List.contains_iff_mem]
  exact known

theorem shorten_of_fits (short : m.fits name = true) : m.shorten name = name :=
  if_pos short

theorem shorten_of_long (long : m.fits name = false) :
    m.shorten name = m.cut name ++ "_" ++ Nat.repr (m.number name) :=
  if_neg (by simp [long])

theorem length_cut (long : m.fits name = false) : (m.cut name).length = m.budget := by
  have tooLong : m.budget < name.length := by simpa [fits] using long
  rw [← String.length_toList] at tooLong
  unfold cut
  rw [String.length_ofList, List.length_take]
  omega

/-- What is cut off is made up for: a long name stays longer than any name that fits. -/
theorem budget_lt_length_shorten (long : m.fits name = false) :
    m.budget < (m.shorten name).length := by
  rw [shorten_of_long long, String.length_append, String.length_append, length_cut long]
  have : "_".length = 1 := rfl
  omega

/-- A name that fits is within the budget, and a shortened one is not. -/
theorem shorten_ne (short : m.fits name = true) (long : m.fits other = false) :
    m.shorten name ≠ m.shorten other := by
  intro same
  have within : name.length ≤ m.budget := by simpa [fits] using short
  have beyond := budget_lt_length_shorten long
  rw [← same, shorten_of_fits short] at beyond
  omega

/-- Two long names of one short form have one beginning and one number. -/
theorem cut_eq_of_shorten_eq (long : m.fits name = false) (long' : m.fits other = false)
    (same : m.shorten name = m.shorten other) :
    m.cut name = m.cut other ∧ m.number name = m.number other := by
  have lengths : (m.cut name).toList.length = (m.cut other).toList.length :=
    (length_cut long).trans (length_cut long').symm
  have lists := congrArg String.toList same
  simp only [shorten_of_long long, shorten_of_long long', String.toList_append,
    List.append_assoc] at lists
  obtain ⟨beginnings, rest⟩ := List.append_inj lists lengths
  -- the digits read back as the number
  have numbers := congrArg (Nat.ofDigitChars 10 · 0) (List.append_cancel_left rest)
  simp only [Nat.repr_eq_ofList_toDigits, String.toList_ofList,
    Nat.ofDigitChars_ten_toDigits] at numbers
  exact ⟨String.toList_inj.1 beginnings, numbers⟩

/-- **A memory tells apart the names that it knows.** -/
theorem shorten_injOn (m : Memory) : Set.InjOn m.shorten {name | m.Knows name} := by
  intro name known other known' same
  cases short : m.fits name with
  | true =>
    cases short' : m.fits other with
    | true =>
      rw [shorten_of_fits short, shorten_of_fits short'] at same
      exact same
    | false => exact absurd same (shorten_ne short short')
  | false =>
    cases short' : m.fits other with
    | true => exact absurd same.symm (shorten_ne short' short)
    | false =>
      obtain ⟨beginning, number⟩ := cut_eq_of_shorten_eq short short' same
      have remembered : name ∈ m.long := known.resolve_left (by simp [short])
      unfold Memory.number at number
      rw [← beginning] at number
      exact (List.idxOf_inj (List.mem_filter.2 ⟨remembered, by simp⟩)).1 number

end Memory

/-! ## §2. The questions of a run -/

namespace Asking

variable {α : Type}

/-- The questions of a run with a memory, in order, each with the answer that it got. -/
def questions : Asking α → Memory → List (String × String)
  | .done _, _ => []
  | .ask name next, m =>
    let (short, m) := m.truncate name
    (name, short) :: (next short).questions m

/-- The questions of a run with fixed answers, in order. -/
def asked (shortOf : String → String) : Asking α → List String
  | .done _ => []
  | .ask name next => name :: (next (shortOf name)).asked shortOf

/-- The final memory knows every question of the run and answers it as it was answered. -/
theorem questions_spec (x : Asking α) (m : Memory) :
    ∀ q ∈ x.questions m, (x.run m).2.Knows q.1 ∧ q.2 = (x.run m).2.shorten q.1 := by
  induction x generalizing m with
  | done value =>
    intro q hq
    cases hq
  | ask name next ih =>
    intro q hq
    rcases List.mem_cons.1 hq with rfl | later
    · have grows : Memory.Grows (m.remember name) ((ask name next).run m).2 :=
        grows_run (next _) (m.remember name)
      have known := Memory.knows_remember m name
      exact ⟨grows.knows known, (Memory.shorten_of_grows grows known).symm⟩
    · exact ih _ (m.remember name) q later

/-- **A run with a memory asks what the run with fixed answers asks**, if these are the answers of
    the final memory. -/
theorem asked_eq (x : Asking α) (m : Memory) :
    x.asked (x.run m).2.shorten = (x.questions m).map (·.1) := by
  induction x generalizing m with
  | done value => rfl
  | ask name next ih =>
    have answer : ((ask name next).run m).2.shorten name = (m.remember name).shorten name :=
      Memory.shorten_of_grows (grows_run (next _) _) (Memory.knows_remember m name)
    show name :: (next (((ask name next).run m).2.shorten name)).asked _ = name :: _
    rw [answer]
    exact congrArg (name :: ·) (ih _ (m.remember name))

/-- **A run can be repeated** on a memory that has grown from the one it left: it gives the same
    value, and there is nothing new to remember. -/
theorem run_of_grows (x : Asking α) {m later : Memory} (grows : Memory.Grows (x.run m).2 later) :
    x.run later = ((x.run m).1, later) := by
  induction x generalizing m with
  | done value => rfl
  | ask name next ih =>
    -- the first run has asked for the name, so the later memory knows it and its answer
    have asked := Memory.knows_remember m name
    have sinceAsked : Memory.Grows (m.remember name) later := (grows_run (next _) _).trans grows
    show (next ((later.remember name).shorten name)).run (later.remember name) = _
    rw [Memory.remember_of_knows (sinceAsked.knows asked), Memory.shorten_of_grows sinceAsked asked]
    exact ih _ grows

theorem asked_bind {β : Type} (shortOf : String → String) (x : Asking α) (f : α → Asking β) :
    (x >>= f).asked shortOf = x.asked shortOf ++ (f (x.answer shortOf)).asked shortOf := by
  show (x.bind f).asked shortOf = _
  induction x with
  | done value => rfl
  | ask name next ih => exact congrArg (name :: ·) (ih (shortOf name))

end Asking

end Identifier

/-! ## §3. The questions of a compilation

A compilation that fails asks no more, so what it asks is said of those that succeed. -/

namespace Compile

variable {α β : Type} {shortOf : String → String}

/-- The questions of a compilation with fixed answers, in order. -/
def asked (shortOf : String → String) (x : Compile α) : List String :=
  Identifier.Asking.asked shortOf x.run

@[simp]
theorem asked_pure (value : α) : (pure value : Compile α).asked shortOf = [] := rfl

@[simp]
theorem asked_ofExcept (x : Except CompileError α) : (Compile.ofExcept x).asked shortOf = [] := rfl

@[simp]
theorem asked_identifier (name : String) : (Compile.identifier name).asked shortOf = [name] := rfl

theorem asked_bind_of_ok {x : Compile α} {a : α} (h : x.answer shortOf = .ok a)
    (f : α → Compile β) :
    (x >>= f).asked shortOf = x.asked shortOf ++ (f a).asked shortOf := by
  have answer : Identifier.Asking.answer shortOf x.run = .ok a := h
  unfold asked
  rw [ExceptT.run_bind, Identifier.Asking.asked_bind, answer]

theorem asked_mapM_of_ok {f : α → Compile β} {xs : List α} {ys : List β}
    (h : (xs.mapM f).answer shortOf = .ok ys) :
    (xs.mapM f).asked shortOf = xs.flatMap fun x => (f x).asked shortOf := by
  induction xs generalizing ys with
  | nil => rfl
  | cons x xs ih =>
    rw [List.mapM_cons, answer_bind] at h
    obtain ⟨y, first, h⟩ := bind_ok_iff.1 h
    rw [answer_bind] at h
    obtain ⟨ys, rest, _⟩ := bind_ok_iff.1 h
    rw [List.mapM_cons, asked_bind_of_ok first, asked_bind_of_ok rest, ih rest, asked_pure,
      List.append_nil, List.flatMap_cons]

/-- Where every step asks for names that depend on its element alone, the fold asks for them one
    after another. -/
theorem asked_foldlM_of_ok {f : β → α → Compile β} {names : α → List String} {xs : List α}
    {b b' : β} (h : (xs.foldlM f b).answer shortOf = .ok b')
    (step : ∀ b x b', (f b x).answer shortOf = .ok b' → (f b x).asked shortOf = names x) :
    (xs.foldlM f b).asked shortOf = xs.flatMap names := by
  induction xs generalizing b with
  | nil => rfl
  | cons x xs ih =>
    rw [List.foldlM_cons, answer_bind] at h
    obtain ⟨c, first, rest⟩ := bind_ok_iff.1 h
    rw [List.foldlM_cons, asked_bind_of_ok first, step b x c first, ih rest, List.flatMap_cons]

end Compile

/-! ## §4. Whole builds -/

namespace Job

open Identifier (Memory ofShort)

/-- The names that a build asks for, in order, each with the identifier generated for it. -/
def requests (j : Job) (memory : Memory) : List (String × String) :=
  (j.compile.run.questions memory).map fun q => (q.1, ofShort q.2)

theorem ofShort_eq (short : String) : ofShort short = "delegate_aux_" ++ short :=
  rfl

theorem ofShort_injective {short short' : String} (h : ofShort short = ofShort short') :
    short = short' := by
  have lists := congrArg String.toList h
  simp only [ofShort_eq, String.toList_append] at lists
  exact String.toList_inj.1 (List.append_cancel_left lists)

/-- **Identifiers tell apart the names that their memory knows.** -/
theorem identifier_inj {m : Memory} {name name' : String} (known : m.Knows name)
    (known' : m.Knows name') (same : m.identifier name = m.identifier name') : name = name' := by
  rw [Memory.identifier_eq, Memory.identifier_eq] at same
  exact m.shorten_injOn known known' (ofShort_injective same)

theorem map_fst_requests (j : Job) (memory : Memory) :
    (j.requests memory).map (·.1) = (j.compile.run.questions memory).map (·.1) := by
  unfold requests
  rw [List.map_map]
  rfl

/-- The memory at the end of a build knows every name that was asked for, and its answer makes the
    identifier that was generated. -/
theorem requests_spec (j : Job) (memory : Memory) : ∀ r ∈ j.requests memory,
    (j.compile.run.run memory).2.Knows r.1 ∧
      r.2 = ofShort ((j.compile.run.run memory).2.shorten r.1) := by
  intro r hr
  obtain ⟨q, hq, rfl⟩ := List.mem_map.1 hr
  obtain ⟨known, answer⟩ := Identifier.Asking.questions_spec j.compile.run memory q hq
  exact ⟨known, congrArg ofShort answer⟩

/-- The memory that a build leaves knows every name that was asked for. -/
theorem knows_of_asked {j : Job} {memory memory' : Memory} {out : Target.Schema}
    (h : j.build memory = (.ok out, memory')) {name : String}
    (asked : name ∈ j.compile.asked memory'.shorten) : memory'.Knows name := by
  have run : j.compile.run.run memory = (.ok out, memory') := h
  have questions := Identifier.Asking.asked_eq j.compile.run memory
  rw [run] at questions
  unfold Compile.asked at asked
  rw [questions] at asked
  obtain ⟨q, hq, rfl⟩ := List.mem_map.1 asked
  have known := (Identifier.Asking.questions_spec j.compile.run memory q hq).1
  rw [run] at known
  exact known

/-- **A build does not see that names are shortened.**  For every job, in either mode, and every
    memory to start with, of whatever length of identifiers, one function shortens all names of
    the build: the build gives what the passes give when every question is answered by that
    function, and they ask for the same names.  Different names of the build have different short
    forms, so two identifiers are equal exactly when they were generated for one name. -/
theorem truncation_transparent (j : Job) (memory : Memory) :
    ∃ short : String → String,
      (j.build memory).1 = j.compile.answer short ∧
      (∀ name, (Compile.identifier name).answer short = .ok ("delegate_aux_" ++ short name)) ∧
      j.compile.run.asked short = (j.requests memory).map (·.1) ∧
      Set.InjOn short {name | name ∈ (j.requests memory).map (·.1)} ∧
      (∀ r ∈ j.requests memory, r.2 = "delegate_aux_" ++ short r.1) ∧
      ∀ r ∈ j.requests memory, ∀ r' ∈ j.requests memory, r.2 = r'.2 ↔ r.1 = r'.1 := by
  have spec := j.requests_spec memory
  have injective : Set.InjOn (j.compile.run.run memory).2.shorten
      {name | name ∈ (j.requests memory).map (·.1)} := by
    refine (j.compile.run.run memory).2.shorten_injOn.mono ?_
    intro name hname
    obtain ⟨r, hr, rfl⟩ := List.mem_map.1 hname
    exact (spec r hr).1
  refine ⟨(j.compile.run.run memory).2.shorten, Identifier.Asking.run_fst j.compile.run memory,
    fun name => Compile.answer_identifier _ name, ?_, injective, fun r hr => (spec r hr).2, ?_⟩
  · rw [map_fst_requests]
    exact Identifier.Asking.asked_eq j.compile.run memory
  · intro r hr r' hr'
    rw [(spec r hr).2, (spec r' hr').2]
    constructor
    · intro same
      exact injective (List.mem_map.2 ⟨r, hr, rfl⟩) (List.mem_map.2 ⟨r', hr', rfl⟩)
        (ofShort_injective same)
    · intro same
      rw [same]

/-- Three characters are too long for a budget of two: the numbers tell the subtypes apart, and
    both of them are answered alike where they refer to their base. -/
example :
    Job.requests
      { schema := ⟨[
          .model { name := "Pet", isDelegate := true },
          .model { name := "Dog", superTypes := ["Pet"] },
          .model { name := "Doe", superTypes := ["Pet"] }]⟩
        mode := .physical } (Memory.ofLength 14)
      = [("dog", "delegate_aux_do_0"), ("doe", "delegate_aux_do_1"), ("pet", "delegate_aux_pe_0"),
         ("pet", "delegate_aux_pe_0")] := by
  decide +kernel

/-! ## §5. Building again -/

/-- **A second build gives what the first one gave**: the same schema or the same fault.  This holds
    of every job, in either mode and with any version of the target tool, and of every memory to
    start with, of whatever length of identifiers.  The first build may have filled the memory only
    in part, because it failed; the second one adds nothing to it. -/
theorem rebuild_gives_same (j : Job) (memory : Memory) :
    j.build (j.build memory).2 = j.build memory :=
  j.compile.run.run_of_grows (Memory.Grows.refl (j.build memory).2)

/-- The field without a type fails the build when the links of the pet are asked for already. -/
example :
    let j : Job := {
      schema := ⟨[
        .model { name := "Pet", isDelegate := true },
        .model { name := "Doe", superTypes := ["Pet"] },
        .model { name := "Dog", superTypes := ["Pet"], fields := [{ name := "age", type := {} }] }]⟩
      mode := .physical }
    let (first, memory) := j.build (Memory.ofLength 14)
    let (second, memory') := j.build memory
    first.toOption = none ∧ second.toOption = none ∧
      memory.long = ["doe", "dog", "pet"] ∧ memory'.long = ["doe", "dog", "pet"] := by
  decide +kernel

end Job

end DelegateSchema
