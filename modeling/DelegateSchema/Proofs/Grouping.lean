/-
  DelegateSchema.Proofs.Grouping — the grouping of an expression can be read from its text.

  The printer leaves parentheses out where the strength of the operators tells the grouping.  A
  reader with a stack finds it again: what is open on the left waits on the stack, and an operator
  that arrives first closes all that binds at least as strongly.  A collection predicate and the
  name of a member follow on what was read last, before anything is closed.  So after the tokens of
  an expression the reader has read this expression, whatever was open before and whatever follows,
  as long as the expression needs no parentheses between the two:

      run stack .start (e.tokens ++ rest) = run stack (.after e) rest

  Main results:
    * `run_close` — closing now or at the next token makes no difference,
    * `reads_of_readable` — the law above, by induction on the expression,
    * `grouping_kept` — expressions with equal texts are equal.
-/
import DelegateSchema.Proofs.Tokens

namespace DelegateSchema.Expression

/-! ## §1. The reader -/

/-- What has been opened and waits for its rest. -/
inductive Frame where
  /-- A parenthesis. -/
  | group
  /-- An array, or the arguments of a function, with the elements before the next one. -/
  | listed (function : Option String) (before : List Expression)
  /-- The brackets of a predicate. -/
  | tested (left : Expression) (op : String)
  /-- An operator after its left operand. -/
  | joined (left : Expression) (op : String)
  /-- An operator before its operand. -/
  | applied (op : String)

/-- Where the reader stands. -/
inductive Place where
  /-- An operand is to come. -/
  | start
  /-- An expression has been read. -/
  | after (e : Expression)
  /-- The name of a member is to come. -/
  | dotted (operand : Expression)
  /-- The bracket of a predicate is to come. -/
  | signed (left : Expression) (op : String)

/-- What a word stands for. -/
def ofWord (word : String) : Expression :=
  if word = "this" then .this
  else if word = "null" then .null
  else if word = "true" then .literal (.boolean true)
  else if word = "false" then .literal (.boolean false)
  else .ref word

/-- The bracket that closes a list. -/
def listBracket : Option String → Bracket
  | none => .square
  | some _ => .round

/-- The array or the function call of a list. -/
def ofList : Option String → List Expression → Expression
  | none, items => .array items
  | some function, args => .call function args

/-- Closes the operators that bind at least as strongly as asked. -/
def settle (least : Nat) : List Frame → Expression → List Frame × Expression
  | .applied op :: stack, e => settle least stack (.unary op e)
  | .joined left op :: stack, e =>
    if least ≤ precedence op then settle least stack (.binary left op e)
    else (.joined left op :: stack, e)
  | stack, e => (stack, e)

/-- Closes a bracket after its last expression. -/
def close (bracket : Bracket) : List Frame × Expression → Option (List Frame × Place)
  | (.group :: stack, e) => if bracket = .round then some (stack, .after e) else none
  | (.listed function before :: stack, e) =>
    if bracket = listBracket function then some (stack, .after (ofList function (before ++ [e])))
    else none
  | (.tested left op :: stack, e) =>
    if bracket = .square then some (stack, .after (.binary left op e)) else none
  | _ => none

/-- Goes on to the next element of a list. -/
def nextElement : List Frame × Expression → Option (List Frame × Place)
  | (.listed function before :: stack, e) =>
    some (.listed function (before ++ [e]) :: stack, .start)
  | _ => none

/-- One token more. -/
def step (stack : List Frame) : Place → Token → Option (List Frame × Place)
  | .start, .word word => some (stack, .after (ofWord word))
  | .start, .string s => some (stack, .after (.literal (.string s)))
  | .start, .sign op => some (.applied op :: stack, .start)
  | .start, .opening .round => some (.group :: stack, .start)
  | .start, .opening .square => some (.listed none [] :: stack, .start)
  -- a list may close before its first element, and nothing else may
  | .start, .closing bracket =>
    match stack with
    | .listed function [] :: stack =>
      if bracket = listBracket function then some (stack, .after (ofList function [])) else none
    | _ => none
  | .after e, .operator op =>
    let (stack, left) := settle (precedence op) stack e
    some (.joined left op :: stack, .start)
  | .after e, .comma => nextElement (settle 0 stack e)
  | .after e, .closing bracket => close bracket (settle 0 stack e)
  -- only a name can be called
  | .after e, .opening .round =>
    match e with
    | .reference function [] => some (.listed (some function) [] :: stack, .start)
    | _ => none
  -- what follows binds to the operand read last, so nothing is closed before it
  | .after e, .dot => some (stack, .dotted e)
  | .after e, .sign op => some (stack, .signed e op)
  | .dotted operand, .word name => some (stack, .after (.member operand name))
  | .signed left op, .opening .square => some (.tested left op :: stack, .start)
  | _, _ => none

/-- Reads tokens to their end, where all operators are closed. -/
def run (stack : List Frame) : Place → List Token → Option Expression
  | .after e, [] =>
    match settle 0 stack e with
    | ([], e) => some e
    | _ => none
  | _, [] => none
  | place, t :: ts => (step stack place t).bind fun (stack, place) => run stack place ts

theorem run_cons (stack : List Frame) (place : Place) (t : Token) (ts : List Token) :
    run stack place (t :: ts) =
      (step stack place t).bind fun (stack, place) => run stack place ts := by
  cases place <;> rfl

/-! ## §2. What binds looser and what binds tighter -/

variable {e : Expression} {stack : List Frame} {ts : List Token} {op : String}

theorem needsParens_zero (e : Expression) : e.needsParens 0 = false := by
  cases e <;> simp [needsParens]

theorem needsParens_of_le {least least' : Nat} (le : least ≤ least')
    (h : e.needsParens least' = false) : e.needsParens least = false := by
  cases e with
  | binary left op right =>
    simp only [needsParens, Bool.and_eq_false_iff, decide_eq_false_iff_not] at h ⊢
    exact h.imp_right fun weak => by omega
  | _ => rfl

theorem needsParens_binary_iff {least : Nat} {left right : Expression}
    (noPredicate : isPredicate op = false) :
    (binary left op right).needsParens least = false ↔ least ≤ precedence op := by
  simp [needsParens, noPredicate]

theorem precedence_lt_tightest (op : String) : precedence op < tightest := by
  unfold precedence
  split <;> decide

/-- The strength that an open frame asks of its operand. -/
def Frame.least : Frame → Nat
  | .joined _ op => precedence op + 1
  | .applied _ => tightest
  | _ => 0

/-- The expression needs no parentheses behind what is open. -/
def Fits (stack : List Frame) (e : Expression) : Prop :=
  ∀ frame ∈ stack.head?, e.needsParens frame.least = false

theorem fits_zero (e : Expression) {frame : Frame} (asksNone : frame.least = 0)
    (stack : List Frame) : Fits (frame :: stack) e := by
  rintro frame ⟨⟩
  rw [asksNone]
  exact needsParens_zero e

theorem fits_of_tight (tight : e.needsParens tightest = false) (stack : List Frame) :
    Fits stack e := by
  intro frame _
  refine needsParens_of_le ?_ tight
  cases frame with
  | joined left op => exact precedence_lt_tightest op
  | applied op => exact Nat.le_refl _
  | group | listed function before | tested left op => exact Nat.zero_le _

/-- Whether a member or a predicate may follow without parentheses. -/
def isClosed (e : Expression) : Bool :=
  !e.needsParens tightest && !e.isUnary

theorem isClosed_of_tight (tight : e.needsParens tightest = false) (noUnary : e.isUnary = false) :
    e.isClosed = true := by
  rw [isClosed, tight, noUnary]
  rfl

/-- The token does not belong to the expression when it follows directly. -/
def StopsAt (e : Expression) : Token → Prop
  | .operator op => e.needsParens (precedence op) = false
  | .sign _ => e.isClosed = true
  | .dot => e.isClosed = true
  | .comma => True
  | .closing _ => True
  | _ => False

/-- What follows does not belong to the expression. -/
def Stops (e : Expression) (ts : List Token) : Prop :=
  ∀ t ∈ ts.head?, e.StopsAt t

theorem stops_cons {t : Token} (h : e.StopsAt t) : Stops e (t :: ts) := by
  rintro t' ⟨⟩
  exact h

theorem stops_closing (e : Expression) (bracket : Bracket) (ts : List Token) :
    Stops e (.closing bracket :: ts) :=
  stops_cons trivial

/-- What stops an expression that is open at its right end stops its last operand, if the operand
    binds at least as strongly. -/
theorem Stops.operand {whole : Expression} (stops : Stops whole ts)
    (isOpen : whole.isClosed = false)
    (stronger : ∀ op, whole.needsParens (precedence op) = false →
      e.needsParens (precedence op) = false) : Stops e ts := by
  intro t first
  have outside := stops t first
  cases t with
  | operator op => exact stronger op outside
  | comma => trivial
  | closing bracket => trivial
  | sign op => exact absurd (isOpen.symm.trans outside) (by decide)
  | dot => exact absurd (isOpen.symm.trans outside) (by decide)
  | word text => cases outside
  | string content => cases outside
  | opening bracket => cases outside

/-! ## §3. Closing -/

/-- The open frame and the expression behind it make up `whole`, and nothing that follows `whole`
    belongs to the expression. -/
structure Closes (frame : Frame) (e whole : Expression) : Prop where
  settles : ∀ least stack, whole.needsParens least = false →
    settle least (frame :: stack) e = settle least stack whole
  isOpen : whole.isClosed = false

theorem closes_joined (noPredicate : isPredicate op = false) (left right : Expression) :
    Closes (.joined left op) right (.binary left op right) where
  settles least stack h := by
    rw [settle, if_pos ((needsParens_binary_iff noPredicate).1 h)]
  isOpen := by
    have loose : (binary left op right).needsParens tightest = true := by
      simp [needsParens, noPredicate, precedence_lt_tightest]
    rw [isClosed, loose]
    rfl

theorem closes_applied (op : String) (operand : Expression) :
    Closes (.applied op) operand (.unary op operand) where
  settles _ _ _ := rfl
  isOpen := rfl

/-- **Closing now or at the next token makes no difference.** -/
theorem run_close {frame : Frame} {whole : Expression} (closes : Closes frame e whole)
    (stops : Stops whole ts) :
    run (frame :: stack) (.after e) ts = run stack (.after whole) ts := by
  have atEnd := closes.settles 0 stack (needsParens_zero whole)
  cases ts with
  | nil => rw [run, run, atEnd]
  | cons t ts =>
    have outside := stops t rfl
    rw [run_cons, run_cons]
    -- a token that closes anything closes the frame as well; the others do not stop `whole`
    cases t with
    | operator op => rw [step, step, closes.settles _ stack outside]
    | comma => rw [step, step, atEnd]
    | closing bracket => rw [step, step, atEnd]
    | sign op => exact absurd (closes.isOpen.symm.trans outside) (by decide)
    | dot => exact absurd (closes.isOpen.symm.trans outside) (by decide)
    | word text => cases outside
    | string content => cases outside
    | opening bracket => cases outside

/-- An operator closes nothing behind which its own expression fits. -/
theorem settle_of_fits {left right : Expression} (noPredicate : isPredicate op = false)
    (fits : Fits stack (.binary left op right)) (e : Expression) :
    settle (precedence op) stack e = (stack, e) := by
  cases stack with
  | nil => rfl
  | cons frame stack =>
    have weaker := (needsParens_binary_iff noPredicate).1 (fits frame rfl)
    cases frame with
    | joined left op' => rw [settle, if_neg (by simp only [Frame.least] at weaker; omega)]
    | applied op' => exact absurd weaker (Nat.not_le.2 (precedence_lt_tightest op))
    | group => rfl
    | listed function before => rfl
    | tested left op' => rfl

/-! ## §4. Reading an expression -/

/-- After its tokens the expression has been read, wherever it needs no parentheses. -/
def Reads (e : Expression) : Prop :=
  ∀ stack ts, Fits stack e → Stops e ts →
    run stack .start (e.tokens ++ ts) = run stack (.after e) ts

/-- An operand is read, with or without parentheses. -/
theorem Reads.grouped (h : e.Reads) (least : Nat)
    (fits : e.needsParens least = false → Fits stack e)
    (stops : e.needsParens least = false → Stops e ts) :
    run stack .start (groupedTokens least e e.tokens ++ ts) = run stack (.after e) ts := by
  unfold groupedTokens
  cases loose : e.needsParens least with
  | false => exact h stack ts (fits loose) (stops loose)
  | true =>
    have inside := h (.group :: stack) (.closing .round :: ts) (fits_zero e rfl stack)
      (stops_closing e .round ts)
    simp only [if_true, List.cons_append, List.append_assoc, List.nil_append]
    rw [run_cons]
    show run (.group :: stack) .start _ = _
    rw [inside, run_cons]
    rfl

/-- The elements of a list are read one after another, up to the closing bracket. -/
theorem run_listed {function : Option String} {before items : List Expression}
    (each : ∀ item ∈ items, item.Reads) (empty : items = [] → before = []) :
    run (.listed function before :: stack) .start
        ([Token.comma].intercalate (items.map tokens) ++ .closing (listBracket function) :: ts) =
      run stack (.after (ofList function (before ++ items))) ts := by
  -- `before` grows by the element that is read, up to the last one
  induction items generalizing before with
  | nil =>
    rw [empty rfl, List.map_nil, List.intercalate_nil, List.nil_append, run_cons]
    simp [step]
  | cons item items ih =>
    have fits : Fits (.listed function before :: stack) item := fits_zero item rfl stack
    have here := each item List.mem_cons_self (.listed function before :: stack)
    cases items with
    | nil =>
      rw [List.map_singleton, List.intercalate_singleton, here _ fits (stops_closing item _ ts),
        run_cons]
      simp [step, settle, close]
    | cons item' items =>
      rw [List.map_cons, List.map_cons, List.intercalate_cons_cons, ← List.map_cons,
        List.append_assoc, List.append_assoc, List.singleton_append,
        here _ fits (stops_cons (t := .comma) trivial)]
      have later := @ih (before ++ [item])
        (fun other hother => each other (List.mem_cons_of_mem _ hother)) (by simp)
      rw [List.append_assoc] at later
      exact later

theorem ofWord_of_isName {name : String} (named : isName name = true) :
    ofWord name = .ref name := by
  have free : name ∉ reserved := by
    simp only [isName, Bool.and_eq_true, Bool.not_eq_true', List.contains_eq_mem,
      decide_eq_false_iff_not] at named
    exact named.2
  simp only [reserved, List.mem_cons, List.not_mem_nil, or_false, not_or] at free
  obtain ⟨noThis, noNull, noTrue, noFalse, _⟩ := free
  rw [ofWord, if_neg noThis, if_neg noNull, if_neg noTrue, if_neg noFalse]

/-- What needs no parentheses before a predicate needs them nowhere, since every operator binds
    looser than a predicate. -/
theorem Readable.needsParens_tightest (h : e.Readable) (known : op ∈ predicates)
    (strong : e.needsParens (precedence op) = false) : e.needsParens tightest = false := by
  rw [precedence_of_mem_predicates known] at strong
  cases h with
  | operator known' =>
    rw [needsParens_binary_iff (isPredicate_of_mem_operators known')] at strong
    exact absurd strong (Nat.not_le.2 (precedence_of_mem_operators known'))
  | predicate known' => simp [needsParens, isPredicate_of_mem_predicates known']
  | _ => rfl

/-- **The tokens of an expression are read as this expression.** -/
theorem reads_of_readable (h : e.Readable) : e.Reads := by
  induction h with
  | reference named =>
    intro stack ts _ _
    show run stack (.after (ofWord _)) ts = _
    rw [ofWord_of_isName named]
  | this => exact fun _ _ _ _ => rfl
  | null => exact fun _ _ _ _ => rfl
  | string s => exact fun _ _ _ _ => rfl
  | boolean b => cases b <;> exact fun _ _ _ _ => rfl
  | @array items each ih =>
    intro stack ts _ _
    rw [tokens, itemTokens_eq_map, List.cons_append, List.append_assoc]
    exact run_listed ih (fun _ => rfl)
  | @call function args named each ih =>
    intro stack ts _ _
    rw [tokens_call, List.cons_append, List.cons_append, List.append_assoc]
    show run stack (.after (ofWord function)) (.opening .round :: _) = _
    rw [ofWord_of_isName named]
    exact run_listed ih (fun _ => rfl)
  | @member operand name inner noUnary named ih =>
    intro stack ts _ _
    rw [tokens, List.append_assoc, ih.grouped tightest]
    · rfl
    · exact fun tight => fits_of_tight tight stack
    · exact fun tight => stops_cons (t := .dot) (isClosed_of_tight tight noUnary)
  | @negation operand inner ih =>
    intro stack ts _ stops
    have closes := closes_applied "!" operand
    rw [tokens, List.cons_append]
    show run (.applied "!" :: stack) .start _ = _
    rw [ih.grouped tightest]
    · -- the operand ends where the whole ends
      exact run_close closes stops
    · exact fun tight => fits_of_tight tight _
    · exact fun tight => stops.operand closes.isOpen fun op _ =>
        needsParens_of_le (Nat.le_of_lt (precedence_lt_tightest op)) tight
  | @operator left right op known first second ih ih' =>
    intro stack ts fits stops
    have noPredicate := isPredicate_of_mem_operators known
    have closes := closes_joined noPredicate left right
    have bound : ∀ {least}, (binary left op right).needsParens least = false ↔
        least ≤ precedence op := needsParens_binary_iff noPredicate
    rw [tokens, noPredicate]
    simp only [Bool.false_eq_true, if_false, List.append_assoc, List.cons_append]
    rw [ih.grouped]
    · -- the operator closes nothing, and its right operand ends where the whole ends
      rw [run_cons, step, settle_of_fits noPredicate fits]
      show run (.joined left op :: stack) .start _ = _
      rw [ih'.grouped]
      · exact run_close closes stops
      · rintro strong frame ⟨⟩
        exact strong
      · exact fun strong => stops.operand closes.isOpen fun op' weaker =>
          needsParens_of_le (Nat.le_succ_of_le (bound.1 weaker)) strong
    · exact fun strong frame top => needsParens_of_le (bound.1 (fits frame top)) strong
    · exact fun strong => stops_cons (t := .operator op) strong
  | @predicate left right op known first noUnary second ih ih' =>
    intro stack ts _ _
    have tight := first.needsParens_tightest known
    rw [tokens, isPredicate_of_mem_predicates known]
    simp only [if_true, List.append_assoc, List.cons_append]
    rw [ih.grouped]
    · -- inside the brackets nothing is open yet
      show run (.tested left op :: stack) .start _ = _
      rw [ih' _ _ (fits_zero right rfl stack) (stops_closing right .square _)]
      rfl
    · exact fun strong => fits_of_tight (tight strong) stack
    · exact fun strong => stops_cons (t := .sign op) (isClosed_of_tight (tight strong) noUnary)

/-- The reader gets a readable expression back from its tokens. -/
theorem run_tokens (h : e.Readable) : run [] .start e.tokens = some e := by
  have read := reads_of_readable h [] [] (by rintro _ ⟨⟩) (by rintro _ ⟨⟩)
  rw [List.append_nil] at read
  exact read

/-- **Printed expressions keep their grouping**: of the readable expressions, in each quote style,
    those with equal texts are equal. -/
theorem grouping_kept (style : QuoteStyle) {e e' : Expression} (h : e.Readable) (h' : e'.Readable) :
    e.text style = e'.text style ↔ e = e' := by
  constructor
  · intro same
    -- equal tokens, and the reader has one result for them
    have both := run_tokens h
    rw [tokens_eq_of_text_eq h h' same, run_tokens h'] at both
    exact (Option.some.inj both).symm
  · rintro rfl
    rfl

/-- `(a || b) && !posts![hidden]` -/
def eitherAndNone : Expression :=
  .binary (.binary (.ref "a") "||" (.ref "b")) "&&"
    (.unary "!" (.binary (.ref "posts") "!" (.ref "hidden")))

/-- `a || b && !posts![hidden]` -/
def eitherOrNone : Expression :=
  .binary (.ref "a") "||"
    (.binary (.ref "b") "&&" (.unary "!" (.binary (.ref "posts") "!" (.ref "hidden"))))

/-- The same words with the parentheses at another place give another text. -/
theorem groupings_told_apart :
    eitherAndNone.Readable ∧ eitherOrNone.Readable ∧
      eitherAndNone.text .single ≠ eitherOrNone.text .single := by
  have name : ∀ {target}, isName target = true → (ref target).Readable := Readable.reference
  have none : (unary "!" (binary (ref "posts") "!" (ref "hidden"))).Readable :=
    .negation (.predicate (by decide) (name (by decide)) rfl (name (by decide)))
  have first : eitherAndNone.Readable :=
    .operator (by decide) (.operator (by decide) (name (by decide)) (name (by decide))) none
  have second : eitherOrNone.Readable :=
    .operator (by decide) (name (by decide)) (.operator (by decide) (name (by decide)) none)
  refine ⟨first, second, fun same => ?_⟩
  have equal := (grouping_kept .single first second).1 same
  cases equal

-- a negation that a member is asked of has the text of a negated member
example : (member (unary "!" (ref "a")) "b").text .single =
    (unary "!" (member (ref "a") "b")).text .single := by decide

end DelegateSchema.Expression
