/-
  DelegateSchema.Proofs.Numbering — the answers of a memory to any sequence of requests.

  Whatever was asked for before, a name that fits is answered by itself, and a longer one by its
  beginning and a number: how many other long names of that beginning were asked for earlier.  The
  number is settled at the first request, where the memory is cut in two: what it remembers at that
  moment are the long names asked for so far (`mem_long_truncateAll`), each of them once, and what
  comes later goes behind them.

  The budget leaves room for the beginning that all identifiers share, but not for the underscore
  after it, nor for the number.  So an identifier is within the length that it was meant for only
  where its name is shorter than the budget.

  Main results:
    * `Memory.truncateAll_fst` — all answers are those of the memory at the end,
    * `Memory.number_truncateAll` — the number of a name counts the distinct names before it,
    * `answers_numbered` — the answers to a sequence of requests, and when two of them are equal,
    * `Memory.identifier_truncateAll` — what an identifier is after any sequence of requests,
    * `identifier_within_length_iff` — when it is within the length set for identifiers,
    * `identifiers_too_long` — identifiers that are not.
-/
import DelegateSchema.Proofs.Truncation
import DelegateSchema.Settings.Basic
import Mathlib.Data.Finset.Card
import Mathlib.Data.Finset.Dedup
import Mathlib.Data.List.TakeWhile

namespace DelegateSchema.Identifier

/-! ## §1. Sequences of requests -/

namespace Memory

/-- Shortens names one after the other: the answers in order, and the memory afterwards. -/
def truncateAll (m : Memory) : List String → List String × Memory
  | [] => ([], m)
  | name :: rest =>
    let (short, m) := m.truncate name
    let (shorts, m) := m.truncateAll rest
    (short :: shorts, m)

variable {m : Memory}

theorem truncateAll_append (m : Memory) (names later : List String) :
    (m.truncateAll (names ++ later)).2 = ((m.truncateAll names).2.truncateAll later).2 := by
  induction names generalizing m with
  | nil => rfl
  | cons name names ih => exact ih (m.remember name)

theorem grows_truncateAll (m : Memory) (names : List String) :
    Grows m (m.truncateAll names).2 := by
  induction names generalizing m with
  | nil => exact Grows.refl m
  | cons name names ih => exact (grows_remember m name).trans (ih (m.remember name))

theorem knows_truncateAll {names : List String} {name : String} (asked : name ∈ names) :
    (m.truncateAll names).2.Knows name := by
  induction names generalizing m with
  | nil => cases asked
  | cons first rest ih =>
    rcases List.mem_cons.1 asked with rfl | later
    · exact (grows_truncateAll (m.remember name) rest).knows (knows_remember m name)
    · exact ih later

/-- **No answer is ever changed**: each request was answered as the memory at the end would. -/
theorem truncateAll_fst (m : Memory) (names : List String) :
    (m.truncateAll names).1 = names.map (m.truncateAll names).2.shorten := by
  induction names generalizing m with
  | nil => rfl
  | cons name rest ih =>
    have kept : (m.truncateAll (name :: rest)).2.shorten name = (m.remember name).shorten name :=
      shorten_of_grows (grows_truncateAll (m.remember name) rest) (knows_remember m name)
    show (m.remember name).shorten name :: ((m.remember name).truncateAll rest).1 = _
    rw [List.map_cons, kept, ih]
    rfl

/-! ## §2. What is remembered -/

theorem mem_long_remember {name other : String} :
    other ∈ (m.remember name).long ↔ other ∈ m.long ∨ other = name ∧ m.fits name = false := by
  unfold remember
  split
  next known =>
    constructor
    · exact Or.inl
    · intro h
      rcases h with old | ⟨rfl, long⟩
      · exact old
      · simpa [long] using known
  next new =>
    have long : m.fits name = false := by
      simp only [Bool.or_eq_true, not_or, Bool.not_eq_true] at new
      exact new.1
    simp [long]

theorem nodup_long_remember (distinct : m.long.Nodup) (name : String) :
    (m.remember name).long.Nodup := by
  unfold remember
  split
  next => exact distinct
  next new =>
    have unknown : name ∉ m.long := by
      intro old
      exact new (by simp [old])
    exact (List.nodup_append_comm).1 (List.nodup_cons.2 ⟨unknown, distinct⟩)

/-- The memory gains the long names that were asked for. -/
theorem mem_long_truncateAll {names : List String} {other : String} :
    other ∈ (m.truncateAll names).2.long ↔
      other ∈ m.long ∨ other ∈ names ∧ m.fits other = false := by
  induction names generalizing m with
  | nil => simp [truncateAll]
  | cons name rest ih =>
    have fits_eq : (m.remember name).fits other = m.fits other := by
      simp only [fits, (grows_remember m name).budget]
    show other ∈ ((m.remember name).truncateAll rest).2.long ↔ _
    rw [ih, mem_long_remember, fits_eq, List.mem_cons]
    constructor
    · rintro ((old | ⟨rfl, long⟩) | ⟨later, long⟩)
      · exact Or.inl old
      · exact Or.inr ⟨Or.inl rfl, long⟩
      · exact Or.inr ⟨Or.inr later, long⟩
    · rintro (old | ⟨rfl | later, long⟩)
      · exact Or.inl (Or.inl old)
      · exact Or.inl (Or.inr ⟨rfl, long⟩)
      · exact Or.inr ⟨later, long⟩

theorem nodup_long_truncateAll (distinct : m.long.Nodup) (names : List String) :
    (m.truncateAll names).2.long.Nodup := by
  induction names generalizing m with
  | nil => exact distinct
  | cons name rest ih => exact ih (nodup_long_remember distinct name)

end Memory

/-! ## §3. Numbers -/

/-- The requests before a name is asked for the first time. -/
def earlier (names : List String) (name : String) : List String :=
  names.takeWhile (· ≠ name)

/-- The name `other` is too long for the budget and begins like `name`, as far as the budget
    goes. -/
def Rivals (budget : Nat) (name other : String) : Prop :=
  budget < other.length ∧ other.toList.take budget = name.toList.take budget

instance (budget : Nat) (name : String) : DecidablePred (Rivals budget name) :=
  fun _ => inferInstanceAs (Decidable (_ ∧ _))

/-- How many different long names of the same beginning are asked for before a name. -/
def rank (budget : Nat) (names : List String) (name : String) : Nat :=
  ((earlier names name).toFinset.filter (Rivals budget name)).card

theorem exists_split_earlier {names : List String} {name : String} (asked : name ∈ names) :
    name ∉ earlier names name ∧ ∃ later, names = earlier names name ++ name :: later := by
  induction names with
  | nil => cases asked
  | cons first rest ih =>
    unfold earlier at ih ⊢
    by_cases here : first = name
    · subst here
      simp
    · obtain ⟨new, later, split⟩ := ih ((List.mem_cons.1 asked).resolve_left (Ne.symm here))
      rw [List.takeWhile_cons_of_pos (by simpa using here)]
      refine ⟨?_, later, ?_⟩
      · simpa [Ne.symm here] using new
      · rw [List.cons_append, ← split]

namespace Memory

variable {m : Memory} {names : List String} {name : String}

/-- The answer to a name is settled before it is asked for the first time. -/
theorem shorten_truncateAll (asked : name ∈ names) :
    (m.truncateAll names).2.shorten name
      = (m.truncateAll (earlier names name)).2.shorten name := by
  obtain ⟨_, later, split⟩ := exists_split_earlier asked
  have grows : Grows ((m.truncateAll (earlier names name)).2.remember name)
      (m.truncateAll names).2 := by
    conv => enter [2, 1]; rw [split]
    rw [truncateAll_append]
    exact grows_truncateAll _ later
  rw [shorten_of_grows grows (knows_remember _ name), shorten_remember]

/-- A name that is not remembered gets the next number of its beginning. -/
theorem number_of_new (new : name ∉ m.long) :
    m.number name = (m.long.filter fun other => m.cut other == m.cut name).length :=
  List.idxOf_eq_length fun old => new (List.mem_of_mem_filter old)

/-- **The number of a long name counts the different names before it** that are too long and begin
    like it. -/
theorem number_truncateAll (fresh : m.long = []) (new : name ∉ names) :
    (m.truncateAll names).2.number name
      = (names.toFinset.filter (Rivals m.budget name)).card := by
  have budget : (m.truncateAll names).2.budget = m.budget := (grows_truncateAll m names).budget
  have remembered : ∀ other, other ∈ (m.truncateAll names).2.long ↔
      other ∈ names ∧ m.budget < other.length := by
    intro other
    rw [mem_long_truncateAll, fresh]
    simp [fits]
  have distinct : (m.truncateAll names).2.long.Nodup := by
    apply nodup_long_truncateAll
    rw [fresh]
    exact List.nodup_nil
  rw [number_of_new fun old => new ((remembered name).1 old).1,
    ← List.toFinset_card_of_nodup (distinct.filter _)]
  congr 1
  ext other
  simp only [List.mem_toFinset, List.mem_filter, Finset.mem_filter, remembered, cut, budget,
    beq_iff_eq, String.ofList_inj, Rivals, and_assoc]

end Memory

/-! ## §4. Answers -/

open Memory in
/-- **What a sequence of requests is answered.**  For every length of identifiers and every sequence
    of names, put to a memory that is empty at first: a name of at most `budget` characters is
    answered by itself, and a longer one by its first `budget` characters, an underscore and the
    number of different long names with the same first characters that were asked for before it.
    Two requests of the sequence get one answer exactly when they ask for one name. -/
theorem answers_numbered (length : Nat) (names : List String) :
    let budget := length - "delegate_aux".length
    let answers := ((ofLength length).truncateAll names).1
    answers = names.map (fun name =>
      if name.length ≤ budget then name
      else String.ofList (name.toList.take budget) ++ "_" ++ Nat.repr (rank budget names name)) ∧
    ∀ (i j : Nat) (name other : String), names[i]? = some name → names[j]? = some other →
      (answers[i]? = answers[j]? ↔ name = other) := by
  intro budget answers
  have final : answers = names.map ((ofLength length).truncateAll names).2.shorten :=
    truncateAll_fst (ofLength length) names
  refine ⟨final.trans (List.map_congr_left ?_), ?_⟩
  · intro name asked
    obtain ⟨new, _⟩ := exists_split_earlier asked
    have kept := (grows_truncateAll (ofLength length) (earlier names name)).budget
    rw [shorten_truncateAll asked]
    unfold shorten fits cut
    rw [kept, number_truncateAll rfl new]
    simp only [decide_eq_true_eq]
    rfl
  · intro i j name other hi hj
    rw [final, List.getElem?_map, List.getElem?_map, hi, hj]
    simp only [Option.map_some, Option.some.injEq]
    exact (shorten_injOn _).eq_iff (knows_truncateAll (List.mem_of_getElem? hi))
      (knows_truncateAll (List.mem_of_getElem? hj))

/-- Two characters are kept.  The third name starts a new count, asking again for the first one
    gives its number back, and no name that fits can look like a number. -/
example :
    ((Memory.ofLength 14).truncateAll ["dog", "doe", "cat", "do", "dog", "dove"]).1
      = ["do_0", "do_1", "ca_0", "do", "do_0", "do_2"] := by
  decide +kernel

/-! ## §5. Lengths -/

theorem notMem_earlier {history : List String} {name : String} : name ∉ earlier history name := by
  intro asked
  have different := List.mem_takeWhile_imp asked
  simp at different

namespace Memory

variable {m : Memory} {history : List String} {name : String}

/-- Whatever was asked for, a name is answered as at its first request, also when this is the
    first one. -/
theorem shorten_of_history :
    (m.truncateAll history).2.shorten name =
      (m.truncateAll (earlier history name)).2.shorten name := by
  by_cases asked : name ∈ history
  · exact shorten_truncateAll asked
  · have all : earlier history name = history := by
      refine List.takeWhile_eq_self_iff.2 ?_
      intro other hother
      simp only [decide_eq_true_eq]
      rintro rfl
      exact asked hother
    rw [all]

/-- **What an identifier is made of.**  A name that fits comes after the shared beginning and an
    underscore as it is; of a longer one comes as much as the budget keeps, then an underscore and
    the number. -/
theorem identifier_truncateAll (fresh : m.long = []) :
    (m.truncateAll history).2.identifier name = start ++ "_" ++
      if m.fits name then name
      else m.cut name ++ "_" ++ Nat.repr (rank m.budget history name) := by
  have budget : (m.truncateAll (earlier history name)).2.budget = m.budget :=
    (grows_truncateAll m (earlier history name)).budget
  have number : (m.truncateAll (earlier history name)).2.number name
      = rank m.budget history name :=
    number_truncateAll fresh notMem_earlier
  rw [identifier_eq, shorten_of_history, ofShort, shorten, number, fits, cut, fits, cut, budget]

end Memory

/-- The lengths of identifiers that the settings allow for. -/
theorem identifierLength_accepted_iff {s : Settings} :
    Violation.identifierLength ∉ s.violations ↔
      20 ≤ s.identifierLength ∧ s.identifierLength ≤ 255 := by
  unfold Settings.violations
  by_cases range : 20 ≤ s.identifierLength ∧ s.identifierLength ≤ 255
  · simp [range]
  · simp [range]

/-- **What the length of identifiers bounds.**  Take any length that the settings accept, and ask a
    memory for that length for any names, and then for one more.  The identifier of this name is
    `delegate_aux`, an underscore, what is kept of the name, and for a name that was cut another
    underscore and its number.  The beginning and what is kept of the name are within the length;
    the underscores and the number come on top.  So the identifier as a whole is within the length
    exactly when there is room for the name after `delegate_aux_`.  A name with one character more
    is not cut, and its identifier has one character more than the length; that of a longer name
    has the two underscores and the digits of the number more. -/
theorem identifier_within_length_iff {s : Settings}
    (accepted : Violation.identifierLength ∉ s.violations) (history : List String)
    (name : String) :
    let length := s.identifierLength
    let memory := Memory.ofLength length
    let number := Nat.repr (rank memory.budget history name)
    let answer := (memory.truncateAll history).2.identifier name
    (∃ kept suffix, answer = "delegate_aux" ++ "_" ++ (kept ++ suffix) ∧
      "delegate_aux".length + kept.length ≤ length ∧
      (if memory.fits name then kept = name ∧ suffix = ""
        else kept = memory.cut name ∧ suffix = "_" ++ number)) ∧
    (answer.length ≤ length ↔ "delegate_aux_".length + name.length ≤ length) ∧
    answer.length =
      if name.length ≤ length - "delegate_aux".length then "delegate_aux_".length + name.length
      else length + 2 + number.length := by
  intro length memory number answer
  have beginning : "delegate_aux".length = 12 := rfl
  have withUnderscore : "delegate_aux_".length = 13 := rfl
  have joined : ("delegate_aux" ++ "_").length = 13 := rfl
  have underscore : "_".length = 1 := rfl
  have budget : memory.budget = length - 12 := rfl
  have atLeast : 20 ≤ length := (identifierLength_accepted_iff.1 accepted).1
  have shape : answer = "delegate_aux" ++ "_" ++
      if memory.fits name then name else memory.cut name ++ "_" ++ number :=
    Memory.identifier_truncateAll rfl
  rw [beginning, withUnderscore, shape]
  by_cases short : name.length ≤ length - 12
  · have fits : memory.fits name = true := by simpa [Memory.fits, budget] using short
    rw [if_pos fits, if_pos short, String.length_append, joined]
    refine ⟨⟨name, "", by rw [String.append_empty], by omega, ?_⟩, Iff.rfl, rfl⟩
    rw [if_pos fits]
    exact ⟨rfl, rfl⟩
  · have long : memory.fits name = false := by simpa [Memory.fits, budget] using short
    have kept : (memory.cut name).length = length - 12 := Memory.length_cut long
    have total : ("delegate_aux" ++ "_" ++ (memory.cut name ++ "_" ++ number)).length =
        length + 2 + number.length := by
      simp only [String.length_append]
      omega
    rw [long, if_neg Bool.false_ne_true, if_neg short, total]
    refine ⟨⟨memory.cut name, "_" ++ number,
      congrArg ("delegate_aux" ++ "_" ++ ·) String.append_assoc, by omega, ?_⟩, ?_, rfl⟩
    · rw [if_neg Bool.false_ne_true]
      exact ⟨rfl, rfl⟩
    · -- the name does not even fit without the underscore after the beginning
      constructor
      · intro within
        omega
      · intro within
        omega

/-- Seven characters are what a length of twenty has room for; others asked for before change
    nothing.  Of a longer name eight characters are kept, which are within the length only without
    the underscores and the number. -/
theorem seven_characters_within_twenty :
    ∃ s : Settings, s.identifierLength = 20 ∧ Violation.identifierLength ∉ s.violations ∧
      ((Memory.ofLength s.identifierLength).truncateAll ["dogAndCat", "dogAndCow"]).2.identifier
        "dogAndC" = "delegate_aux_dogAndC" ∧
      (((Memory.ofLength s.identifierLength).truncateAll
        ["dogAndCat", "dogAndCow"]).2.identifier "dogAndC").length ≤ s.identifierLength ∧
      ∃ kept suffix, ((Memory.ofLength s.identifierLength).truncateAll
          ["dogAndCat", "dogAndCow"]).2.identifier "dogAndCar" =
            "delegate_aux" ++ "_" ++ (kept ++ suffix) ∧
        "delegate_aux".length + kept.length ≤ s.identifierLength ∧ kept = "dogAndCa" ∧
        suffix = "_1" := by
  refine ⟨{ identifierLength := 20 }, rfl, by decide, by decide +kernel, ?_, ?_⟩
  · exact (identifier_within_length_iff (by decide) ["dogAndCat", "dogAndCow"] "dogAndC").2.1.2
      (by decide)
  · obtain ⟨kept, suffix, answer, within, parts⟩ :=
      (identifier_within_length_iff (s := { identifierLength := 20 }) (by decide)
        ["dogAndCat", "dogAndCow"] "dogAndCar").1
    obtain ⟨isKept, isSuffix⟩ := parts
    exact ⟨kept, suffix, answer, within, isKept.trans (by decide +kernel),
      isSuffix.trans (by decide +kernel)⟩

/-- **Identifiers can be longer than the settings say**: with twenty characters, that of a name of
    eight has twenty-one, and that of a longer name has twenty-three. -/
theorem identifiers_too_long :
    ∃ s : Settings, s.identifierLength = 20 ∧ s.violations = [] ∧
      (Memory.ofLength s.identifierLength).identifier "dogAndCa" = "delegate_aux_dogAndCa" ∧
      s.identifierLength < "delegate_aux_dogAndCa".length ∧
      ((Memory.ofLength s.identifierLength).truncateAll ["dogAndCat"]).2.identifier "dogAndCar"
        = "delegate_aux_dogAndCa_1" ∧
      s.identifierLength < "delegate_aux_dogAndCa_1".length :=
  ⟨{ identifierLength := 20 }, rfl, by decide, by decide +kernel, by decide, by decide +kernel,
    by decide⟩

end DelegateSchema.Identifier
