/-
  DelegateSchema.Proofs.AcceptedArguments — which expressions are argument values.

  An array is a value where each of its items is one, at any depth; a function call is one where
  each of its arguments is a literal or null, and nothing deeper is looked at.  What an expression
  holds that is no value where it stands offends, and the fault names the first offender in the
  order of the text.

  Main results:
    * `Reports.mapM` — of a list that is worked off in order, the first offender is reported,
    * `reports_toValue` — translating an expression reports the first of its offenders, and
      otherwise gives a value of its shape,
    * `accepted_iff` — the expressions without offenders,
    * `arguments_accepted_exactly` — the above as one statement.
-/
import DelegateSchema.Proofs.KeyCopies

namespace DelegateSchema

namespace Expression

/-! ## §1. The language of argument values -/

/-- Whether an expression may be passed to a function call. -/
def isPlain : Expression → Bool
  | .literal _ => true
  | .null => true
  | _ => false

/-- The expressions that are accepted as argument values. -/
inductive Accepted : Expression → Prop
  | literal (value : Literal) : Accepted (.literal value)
  | reference (target : String) (args : List (Argument Expression)) :
      Accepted (.reference target args)
  | invocation (function : String) {args : List (Argument Expression)}
      (plain : ∀ arg ∈ args, arg.value.isPlain = true) : Accepted (.invocation function args)
  | array {items : List Expression} (each : ∀ item ∈ items, Accepted item) :
      Accepted (.array items)

/-- The argument of a function call where it offends: itself, unless it is plain. -/
def callOffenders (arg : Argument Expression) : List Expression :=
  if arg.value.isPlain then [] else [arg.value]

mutual

/-- What stands in an expression and is no argument value there, from left to right. -/
def offenders : Expression → List Expression
  | .literal _ => []
  | .reference _ _ => []
  | .invocation _ args => args.flatMap callOffenders
  | .array items => itemOffenders items
  | .member operand name => [.member operand name]
  | .unary op operand => [.unary op operand]
  | .binary left op right => [.binary left op right]
  | .this => [.this]
  | .null => [.null]

/-- What offends in the items of an array. -/
def itemOffenders : List Expression → List Expression
  | [] => []
  | item :: rest => item.offenders ++ itemOffenders rest

end

theorem itemOffenders_eq_flatMap (items : List Expression) :
    itemOffenders items = items.flatMap offenders := by
  induction items with
  | nil => rfl
  | cons item rest ih => rw [itemOffenders, List.flatMap_cons, ih]

/-- The value has the shape of the expression: the same literal, the same field with the same names
    of arguments, the same function with as many arguments, or as many items of the same shapes. -/
inductive HasShape : Expression → Target.Value → Prop
  | string (s : String) : HasShape (.literal (.string s)) (.string s)
  | number (n : Number) : HasShape (.literal (.number n)) (.number n.text)
  | boolean (b : Bool) : HasShape (.literal (.boolean b)) (.boolean b)
  | field (target : String) {args : List (Argument Expression)} {texts : List (Argument String)}
      (names : texts.map (·.name) = args.map (·.name)) :
      HasShape (.reference target args) (.field target texts)
  | call (function : String) {args : List (Argument Expression)} {texts : List String}
      (count : texts.length = args.length) :
      HasShape (.invocation function args) (.call function texts)
  | array {items : List Expression} {values : List Target.Value}
      (each : List.Forall₂ HasShape items values) : HasShape (.array items) (.array values)

/-! ## §2. Reports of the first offender -/

/-- The computation fails with the kind of the first offender; where there is none, it gives a
    result that satisfies `P`. -/
def Reports {α : Type} (x : Except CompileError α) (offenders : List Expression) (P : α → Prop) :
    Prop :=
  match offenders with
  | [] => ∃ a, x = .ok a ∧ P a
  | first :: _ => x = .error (.unsupportedArgument first.kind)

variable {α β : Type}

theorem Reports.ok {P : α → Prop} {a : α} (h : P a) : Reports (.ok a) [] P :=
  ⟨a, rfl, h⟩

theorem Reports.bind {x : Except CompileError α} {f : α → Except CompileError β} {P : α → Prop}
    {Q : β → Prop} {here later : List Expression} (first : Reports x here P)
    (rest : ∀ a, P a → Reports (f a) later Q) : Reports (x >>= f) (here ++ later) Q := by
  cases here with
  | nil =>
    obtain ⟨a, rfl, holds⟩ := first
    exact rest a holds
  | cons offender others =>
    cases first
    rfl

/-- A list that is worked off in order reports the first offender of all its elements. -/
theorem Reports.mapM {f : α → Except CompileError β} {offenders : α → List Expression}
    {R : α → β → Prop} {xs : List α} (each : ∀ x ∈ xs, Reports (f x) (offenders x) (R x)) :
    Reports (xs.mapM f) (xs.flatMap offenders) (List.Forall₂ R xs) := by
  induction xs with
  | nil => exact Reports.ok List.Forall₂.nil
  | cons x xs ih =>
    -- the first element is translated before the others, and its offenders stand before theirs
    rw [List.mapM_cons, List.flatMap_cons]
    refine (each x List.mem_cons_self).bind fun y first => ?_
    rw [← List.append_nil (xs.flatMap offenders)]
    refine (ih fun x hx => each x (List.mem_cons_of_mem _ hx)).bind fun ys rest => ?_
    exact Reports.ok (List.Forall₂.cons first rest)

theorem Reports.exists_ok_iff {x : Except CompileError α} {offenders : List Expression}
    {P : α → Prop} (h : Reports x offenders P) : (∃ a, x = .ok a) ↔ offenders = [] := by
  cases offenders with
  | nil =>
    obtain ⟨a, result, _⟩ := h
    exact iff_of_true ⟨a, result⟩ rfl
  | cons first rest =>
    cases h
    exact iff_of_false (by rintro ⟨a, ⟨⟩⟩) (by simp)

theorem Reports.error_iff {x : Except CompileError α} {offenders : List Expression} {P : α → Prop}
    (h : Reports x offenders P) {fault : CompileError} :
    x = .error fault ↔ ∃ first, offenders.head? = some first ∧
      fault = .unsupportedArgument first.kind := by
  cases offenders with
  | nil =>
    obtain ⟨a, rfl, _⟩ := h
    simp
  | cons first rest =>
    cases h
    simp [eq_comm]

theorem Reports.of_ok {x : Except CompileError α} {offenders : List Expression} {P : α → Prop}
    (h : Reports x offenders P) {a : α} (result : x = .ok a) : P a := by
  cases offenders with
  | nil =>
    obtain ⟨b, rfl, holds⟩ := h
    cases result
    exact holds
  | cons first rest =>
    rw [show x = .error _ from h] at result
    cases result

/-! ## §3. Translating an expression -/

theorem reports_callArgText (arg : Argument Expression) :
    Reports (callArgText arg.value) (callOffenders arg) fun _ => True := by
  unfold callOffenders
  cases arg.value with
  | literal value =>
    cases value with
    | string s => exact ⟨_, rfl, trivial⟩
    | number n => exact ⟨_, rfl, trivial⟩
    | boolean b => exact ⟨_, rfl, trivial⟩
  | null => exact ⟨_, rfl, trivial⟩
  | array items | reference target args | invocation function args | member operand name
  | unary op operand | binary left op right | this => rfl

mutual

/-- **The first offender of an expression is reported**; without one, the value has the shape of
    the expression. -/
theorem reports_toValue : (e : Expression) → Reports e.toValue e.offenders e.HasShape
  | .literal (.string s) => Reports.ok (HasShape.string s)
  | .literal (.number n) => Reports.ok (HasShape.number n)
  | .literal (.boolean b) => Reports.ok (HasShape.boolean b)
  | .reference target args =>
    Reports.ok (HasShape.field target (by rw [List.map_map]; rfl))
  | .invocation function args => by
    rw [toValue, offenders, ← List.append_nil (args.flatMap callOffenders)]
    refine (Reports.mapM fun arg _ => reports_callArgText arg).bind fun texts each => ?_
    exact Reports.ok (HasShape.call function each.length_eq.symm)
  | .array items => by
    rw [toValue, itemsToValues_eq_mapM, offenders, itemOffenders_eq_flatMap,
      ← List.append_nil (items.flatMap offenders)]
    refine (Reports.mapM (reports_items items)).bind fun values each => ?_
    exact Reports.ok (HasShape.array each)
  | .member _ _ | .unary _ _ | .binary _ _ _ | .this | .null => rfl

theorem reports_items : (items : List Expression) →
    ∀ item ∈ items, Reports item.toValue item.offenders item.HasShape
  | [], _, among => by cases among
  | first :: rest, item, among => by
    rcases List.mem_cons.1 among with here | later
    · rw [here]
      exact reports_toValue first
    · exact reports_items rest item later

end

/-! ## §4. The accepted expressions -/

theorem flatMap_callOffenders_eq_nil_iff {args : List (Argument Expression)} :
    args.flatMap callOffenders = [] ↔ ∀ arg ∈ args, arg.value.isPlain = true := by
  simp [List.flatMap_eq_nil_iff, callOffenders]

theorem Accepted.offenders_eq_nil {e : Expression} (h : e.Accepted) : e.offenders = [] := by
  induction h with
  | literal value => rw [offenders]
  | reference target args => rw [offenders]
  | invocation function plain =>
    rw [offenders]
    exact flatMap_callOffenders_eq_nil_iff.2 plain
  | array each ih =>
    rw [offenders, itemOffenders_eq_flatMap]
    exact List.flatMap_eq_nil_iff.2 ih

mutual

theorem accepted_of_offenders : (e : Expression) → e.offenders = [] → e.Accepted
  | .literal value, _ => Accepted.literal value
  | .reference target args, _ => Accepted.reference target args
  | .invocation function args, none_offends => by
    rw [offenders] at none_offends
    exact Accepted.invocation function (flatMap_callOffenders_eq_nil_iff.1 none_offends)
  | .array items, none_offends => by
    rw [offenders] at none_offends
    exact Accepted.array (accepted_of_itemOffenders items none_offends)
  | .member _ _, h | .unary _ _, h | .binary _ _ _, h | .this, h | .null, h => by
    rw [offenders] at h
    cases h

theorem accepted_of_itemOffenders : (items : List Expression) → itemOffenders items = [] →
    ∀ item ∈ items, item.Accepted
  | [], _, _, among => by cases among
  | first :: rest, none_offends, item, among => by
    rw [itemOffenders, List.append_eq_nil_iff] at none_offends
    rcases List.mem_cons.1 among with here | later
    · rw [here]
      exact accepted_of_offenders first none_offends.1
    · exact accepted_of_itemOffenders rest none_offends.2 item later

end

/-- The accepted expressions are those in which nothing offends. -/
theorem accepted_iff {e : Expression} : e.Accepted ↔ e.offenders = [] :=
  ⟨Accepted.offenders_eq_nil, accepted_of_offenders e⟩

/-- **Argument values are exactly the accepted expressions.**  A literal is one, a reference with
    any arguments, a function call on literals and nulls, and an array of accepted expressions.
    Every other expression fails with the kind of the first offender from left to right, and an
    accepted one gives a value of its own shape. -/
theorem arguments_accepted_exactly (e : Expression) :
    ((∃ v, e.toValue = .ok v) ↔ e.Accepted) ∧
      (∀ fault, e.toValue = .error fault ↔
        ∃ first, e.offenders.head? = some first ∧ fault = .unsupportedArgument first.kind) ∧
      ∀ v, e.toValue = .ok v → e.HasShape v := by
  have reports := reports_toValue e
  refine ⟨?_, fun fault => reports.error_iff, fun v result => reports.of_ok result⟩
  rw [accepted_iff]
  exact reports.exists_ok_iff

/-- A list that holds an empty list, a field whose argument is no value of its own, and a call. -/
def nestedArgument : Expression :=
  .array [.array [], .reference "title" [⟨some "sort", .this⟩], .call "nanoid" [.null]]

/-- The nested list is accepted and keeps its shape.  With a call on a field and then `this` added
    to it, the fault names the field, although `this` stands less deep. -/
theorem nestedArgument_accepted :
    (∃ v, nestedArgument.toValue = .ok v ∧ nestedArgument.HasShape v) ∧
      (array [nestedArgument, call "f" [.null, .ref "x"], .this]).toValue =
        .error (.unsupportedArgument .reference) := by
  obtain ⟨_, _, shape⟩ := arguments_accepted_exactly nestedArgument
  obtain ⟨_, fails, _⟩ :=
    arguments_accepted_exactly (array [nestedArgument, call "f" [.null, .ref "x"], .this])
  exact ⟨⟨_, rfl, shape _ rfl⟩, (fails _).2 ⟨.ref "x", rfl, rfl⟩⟩

end Expression

end DelegateSchema
