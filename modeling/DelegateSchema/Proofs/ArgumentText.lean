/-
  DelegateSchema.Proofs.ArgumentText — one expression, two texts.

  The argument of an attribute reaches the output in two steps: the expression becomes a value of
  the target language, and the value is written.  The printer of the source language writes the
  same expression in one step.  Both put strings between double quotes, and both put a backslash
  before every quote and every backslash of the content, wherever the string stands; except that a
  string passed to a function call is text already when it becomes part of a value, and this text
  is the content between quotes as it is.

  Main results:
    * `Unescaped.eq_iff` — two texts that differ in backslashes only agree where none is missing,
    * `unescaped_toValue` — the two texts of an expression differ in this way,
    * `holds_write_of_toValue` — the other strings come out with their backslashes in any case,
    * `rendered_eq_printed_iff` — when the two texts agree,
    * `unescaped_call_argument` — two texts that do not.
-/
import DelegateSchema.Compile.Attribute
import DelegateSchema.Proofs.Identifiers
import DelegateSchema.Target.Text
import Mathlib.Algebra.GroupWithZero.Nat
import Mathlib.Algebra.Order.BigOperators.Group.List
import Mathlib.Algebra.Order.Group.Nat

namespace DelegateSchema

/-! ## §1. Texts that hold a text -/

namespace Text

/-- The text `part` stands somewhere in `text`. -/
def Holds (text part : String) : Prop :=
  ∃ before after, text = before ++ part ++ after

variable {text part : String}

theorem Holds.refl (text : String) : Holds text text :=
  ⟨"", "", by simp⟩

theorem Holds.append_left (h : Holds text part) (before : String) :
    Holds (before ++ text) part := by
  obtain ⟨before', after, rfl⟩ := h
  exact ⟨before ++ before', after, by simp [String.append_assoc]⟩

theorem Holds.append_right (h : Holds text part) (after : String) :
    Holds (text ++ after) part := by
  obtain ⟨before, after', rfl⟩ := h
  exact ⟨before, after' ++ after, by simp [String.append_assoc]⟩

theorem Holds.intercalate {texts : List String} (between : String) (member : text ∈ texts)
    (h : Holds text part) : Holds (between.intercalate texts) part := by
  induction texts with
  | nil => cases member
  | cons first rest ih =>
    cases rest with
    | nil =>
      rw [List.mem_singleton.1 member] at h
      rw [String.intercalate_singleton]
      exact h
    | cons second rest =>
      rw [String.intercalate_cons_cons]
      rcases List.mem_cons.1 member with rfl | later
      · exact (h.append_right _).append_right _
      · exact (ih later).append_left _

/-- Texts with a text between them are as long as all of these together. -/
theorem length_intercalate (between : String) (texts : List String) :
    (between.intercalate texts).length =
      (texts.map String.length).sum + between.length * (texts.length - 1) := by
  induction texts with
  | nil => simp
  | cons first rest ih =>
    cases rest with
    | nil => simp
    | cons second rest =>
      rw [String.intercalate_cons_cons, String.length_append, String.length_append, ih]
      simp only [List.map_cons, List.sum_cons, List.length_cons, Nat.add_sub_cancel]
      rw [Nat.mul_succ]
      omega

/-! ## §2. Backslashes -/

namespace Quoted

/-- How many backslashes the quoted form of a text has that the text has not. -/
def escapes (quote : Char) (s : String) : Nat :=
  s.toList.countP fun c => c = '\\' ∨ c = quote

theorem escapes_eq_zero_iff {quote : Char} {s : String} :
    escapes quote s = 0 ↔ quote ∉ s.toList ∧ '\\' ∉ s.toList := by
  unfold escapes
  rw [List.countP_eq_zero]
  constructor
  · intro none_escaped
    exact ⟨fun h => none_escaped _ h (by simp), fun h => none_escaped _ h (by simp)⟩
  · intro ⟨no_quote, no_backslash⟩ c hc special
    rcases of_decide_eq_true special with rfl | rfl
    · exact no_backslash hc
    · exact no_quote hc

theorem length_escape (quote : Char) (cs : List Char) :
    (escape quote cs).length = cs.length + cs.countP fun c => c = '\\' ∨ c = quote := by
  induction cs with
  | nil => rfl
  | cons c cs ih =>
    unfold escape
    by_cases special : c = '\\' ∨ c = quote
    · simp only [if_pos special, List.length_cons, ih, List.countP_cons, decide_eq_true special,
        if_true]
      omega
    · simp only [if_neg special, List.length_cons, ih, List.countP_cons, decide_eq_false special,
        Bool.false_eq_true, if_false]
      omega

theorem length_write (quote : Char) (s : String) :
    (write quote s).length = s.length + escapes quote s + 2 := by
  unfold write escapes
  rw [String.length_ofList]
  simp only [List.cons_append, List.length_cons, List.length_append, List.length_nil,
    length_escape, String.length_toList]

theorem escape_eq_self {quote : Char} {cs : List Char}
    (none_escaped : ∀ c ∈ cs, ¬ (c = '\\' ∨ c = quote)) : escape quote cs = cs := by
  induction cs with
  | nil => rfl
  | cons c cs ih =>
    unfold escape
    rw [if_neg (none_escaped c List.mem_cons_self),
      ih fun c hc => none_escaped c (List.mem_cons_of_mem _ hc)]

/-- A text without quotes and backslashes is quoted as it is. -/
theorem write_of_escapes_eq_zero {s : String} (h : escapes '"' s = 0) :
    write '"' s = "\"" ++ s ++ "\"" := by
  have none_escaped : ∀ c ∈ s.toList, ¬ (c = '\\' ∨ c = '"') := by
    intro c hc special
    exact List.countP_eq_zero.1 h c hc (decide_eq_true special)
  unfold write
  rw [escape_eq_self none_escaped, ← String.toList_inj]
  simp [String.toList_append]

end Quoted

end Text

/-! ## §3. Texts that lack backslashes -/

open Text (Holds)
open Text.Quoted (escapes write)

/-- The text `rendered` is `printed` without the backslashes of some strings: it is shorter by
    their number, and it is the same where there are none. -/
structure Unescaped (strings : List String) (printed rendered : String) : Prop where
  length : printed.length = rendered.length + (strings.map (escapes '"')).sum
  same : (∀ s ∈ strings, escapes '"' s = 0) → rendered = printed

/-- The same of lists of texts, where it does not matter which text has which string. -/
structure AllUnescaped (strings : List String) (printed rendered : List String) : Prop where
  count : printed.length = rendered.length
  length : (printed.map String.length).sum =
    (rendered.map String.length).sum + (strings.map (escapes '"')).sum
  same : (∀ s ∈ strings, escapes '"' s = 0) → rendered = printed

namespace Unescaped

variable {strings : List String} {printed rendered : String}

theorem refl (text : String) : Unescaped [] text text :=
  ⟨by simp, fun _ => rfl⟩

theorem wrap (h : Unescaped strings printed rendered) (before after : String) :
    Unescaped strings (before ++ printed ++ after) (before ++ rendered ++ after) where
  length := by
    simp only [String.length_append, h.length]
    omega
  same none_escaped := by rw [h.same none_escaped]

/-- **The texts agree exactly where no string needs a backslash**, since each one that does makes
    the one text shorter than the other. -/
theorem eq_iff (h : Unescaped strings printed rendered) :
    rendered = printed ↔ ∀ s ∈ strings, escapes '"' s = 0 := by
  constructor
  · intro same s hs
    have length := h.length
    rw [same] at length
    have atMost : escapes '"' s ≤ (strings.map (escapes '"')).sum :=
      List.le_sum_of_mem (List.mem_map.2 ⟨s, hs, rfl⟩)
    omega
  · exact h.same

end Unescaped

namespace AllUnescaped

theorem nil : AllUnescaped [] [] [] :=
  ⟨rfl, rfl, fun _ => rfl⟩

theorem cons {strings strings' : List String} {printed rendered : String}
    {printed' rendered' : List String} (first : Unescaped strings printed rendered)
    (rest : AllUnescaped strings' printed' rendered') :
    AllUnescaped (strings ++ strings') (printed :: printed') (rendered :: rendered') where
  count := by rw [List.length_cons, List.length_cons, rest.count]
  length := by
    simp only [List.map_cons, List.sum_cons, List.map_append, List.sum_append, first.length,
      rest.length]
    omega
  same none_escaped := by
    rw [first.same fun s hs => none_escaped s (List.mem_append_left _ hs),
      rest.same fun s hs => none_escaped s (List.mem_append_right _ hs)]

theorem intercalate {strings printed rendered : List String}
    (h : AllUnescaped strings printed rendered) (between : String) :
    Unescaped strings (between.intercalate printed) (between.intercalate rendered) where
  length := by
    rw [Text.length_intercalate, Text.length_intercalate, h.length, h.count]
    omega
  same none_escaped := by rw [h.same none_escaped]

end AllUnescaped

/-! ## §4. Strings in an expression -/

namespace Expression

mutual

/-- The string literals in an expression, at any depth. -/
def strings : Expression → List String
  | .literal (.string s) => [s]
  | .literal (.number _) => []
  | .literal (.boolean _) => []
  | .array items => itemStrings items
  | .reference _ args => argStrings args
  | .invocation _ args => argStrings args
  | .member operand _ => operand.strings
  | .unary _ operand => operand.strings
  | .binary left _ right => left.strings ++ right.strings
  | .this => []
  | .null => []

/-- The string literals in the items of an array. -/
def itemStrings : List Expression → List String
  | [] => []
  | item :: rest => item.strings ++ itemStrings rest

/-- The string literals in arguments. -/
def argStrings : List (Argument Expression) → List String
  | [] => []
  | ⟨_, value⟩ :: rest => value.strings ++ argStrings rest

end

mutual

/-- The arguments of the function calls of an argument value: of the call that it is, or of those
    among its items. -/
def callArgs : Expression → List (Argument Expression)
  | .array items => itemCallArgs items
  | .invocation _ args => args
  | _ => []

/-- The arguments of the function calls of the items of an array. -/
def itemCallArgs : List Expression → List (Argument Expression)
  | [] => []
  | item :: rest => item.callArgs ++ itemCallArgs rest

end

/-- The strings among arguments. -/
def stringsOf (args : List (Argument Expression)) : List String :=
  args.filterMap (·.value.asString?)

/-- The strings that an argument value passes to function calls. -/
def callStrings (e : Expression) : List String :=
  stringsOf e.callArgs

theorem stringsOf_append (args args' : List (Argument Expression)) :
    stringsOf (args ++ args') = stringsOf args ++ stringsOf args' :=
  List.filterMap_append

/-! ## §5. Rendered and printed -/

theorem argTexts_eq_map (style : QuoteStyle) (args : List (Argument Expression)) :
    argTexts style args = args.map fun arg => labelled arg.name (arg.value.text style) := by
  induction args with
  | nil => simp [argTexts]
  | cons arg rest ih => simp [argTexts, ih]

theorem text_reference_cons (style : QuoteStyle) (target : String) (arg : Argument Expression)
    (rest : List (Argument Expression)) :
    (reference target (arg :: rest)).text style =
      target ++ "(" ++ ", ".intercalate (argTexts style (arg :: rest)) ++ ")" := by
  rw [Expression.text]
  simp

/-- The arguments of a field are printed when the value is made, not when it is written. -/
theorem text_reference (target : String) (args : List (Argument Expression)) :
    (Target.Value.field target (args.map fun arg => ⟨arg.name, arg.value.text .double⟩)).text =
      (reference target args).text .double := by
  cases args with
  | nil => rw [Expression.text, List.map_nil, Target.Value.text]
  | cons arg rest =>
    rw [text_reference_cons, argTexts_eq_map]
    simp [Target.Value.text, Function.comp_def]

/-- The text of an argument of a call lacks the backslashes of the string that it is. -/
theorem unescaped_callArgText {e : Expression} {text : String} (h : callArgText e = .ok text) :
    Unescaped e.asString?.toList (e.text .double) text := by
  cases e with
  | literal value =>
    cases value with
    | string s =>
      cases h
      rw [Expression.text]
      constructor
      · show (write '"' s).length = _
        have quote : "\"".length = 1 := rfl
        rw [Text.Quoted.length_write, String.length_append, String.length_append, quote]
        simp only [asString?, Option.toList_some, List.map_singleton, List.sum_singleton]
        omega
      · intro none_escaped
        exact (Text.Quoted.write_of_escapes_eq_zero (none_escaped s List.mem_cons_self)).symm
    | number n =>
      cases h
      rw [Expression.text]
      exact Unescaped.refl _
    | boolean b =>
      cases h
      rw [Expression.text]
      exact Unescaped.refl _
  | null =>
    cases h
    rw [Expression.text]
    exact Unescaped.refl _
  | array items | reference target args | invocation function args | member operand name
  | unary op operand | binary left op right | this => cases h

theorem unescaped_callArgTexts {args : List (Argument Expression)} {texts : List String}
    (h : callArgTexts args = .ok texts) (unnamed : ∀ arg ∈ args, arg.name = none) :
    AllUnescaped (stringsOf args) (argTexts .double args) texts := by
  have each := mapM_ok_iff.1 h
  clear h
  induction each with
  | nil =>
    rw [argTexts]
    exact AllUnescaped.nil
  | @cons arg text rest texts first _ ih =>
    have printed : argTexts .double (arg :: rest) =
        arg.value.text .double :: argTexts .double rest := by
      rw [argTexts, unnamed arg List.mem_cons_self]
      rfl
    have strings : stringsOf (arg :: rest) = arg.value.asString?.toList ++ stringsOf rest := by
      unfold stringsOf
      rw [List.filterMap_cons]
      cases arg.value.asString? with
      | none => rfl
      | some s => rfl
    rw [printed, strings]
    exact AllUnescaped.cons (unescaped_callArgText first)
      (ih fun arg harg => unnamed arg (List.mem_cons_of_mem _ harg))

mutual

/-- **The text of a value is the printed expression without the backslashes of the strings that
    are passed to calls.** -/
theorem unescaped_toValue : (e : Expression) → {v : Target.Value} → e.toValue = .ok v →
    (∀ arg ∈ e.callArgs, arg.name = none) → Unescaped e.callStrings (e.text .double) v.text
  | .literal (.string s), _, h, _ => by
    cases h
    rw [Expression.text, Target.Value.text]
    exact Unescaped.refl _
  | .literal (.number n), _, h, _ => by
    cases h
    rw [Expression.text, Target.Value.text]
    exact Unescaped.refl _
  | .literal (.boolean b), _, h, _ => by
    cases h
    rw [Expression.text, Target.Value.text]
    exact Unescaped.refl _
  | .array items, _, h, unnamed => by
    rw [toValue] at h
    obtain ⟨values, ok, h⟩ := bind_ok_iff.1 h
    cases h
    rw [callArgs] at unnamed
    unfold callStrings
    rw [Expression.text, Target.Value.text, callArgs]
    exact ((unescaped_itemsToValues items ok unnamed).intercalate ", ").wrap "[" "]"
  | .reference target args, _, h, _ => by
    cases h
    rw [text_reference]
    exact Unescaped.refl _
  | .invocation function args, _, h, unnamed => by
    rw [toValue] at h
    obtain ⟨texts, ok, h⟩ := bind_ok_iff.1 h
    cases h
    rw [callArgs] at unnamed
    unfold callStrings
    rw [Expression.text, Target.Value.text, callArgs]
    exact ((unescaped_callArgTexts ok unnamed).intercalate ", ").wrap (function ++ "(") ")"
  | .member _ _, _, h, _ | .unary _ _, _, h, _ | .binary _ _ _, _, h, _ | .this, _, h, _
  | .null, _, h, _ => by cases h

theorem unescaped_itemsToValues : (items : List Expression) → {values : List Target.Value} →
    itemsToValues items = .ok values → (∀ arg ∈ itemCallArgs items, arg.name = none) →
    AllUnescaped (stringsOf (itemCallArgs items)) (itemTexts .double items)
      (Target.Value.itemTexts values)
  | [], _, h, _ => by
    cases h
    rw [itemTexts]
    exact AllUnescaped.nil
  | item :: rest, _, h, unnamed => by
    rw [itemsToValues] at h
    obtain ⟨value, first, h⟩ := bind_ok_iff.1 h
    obtain ⟨values, later, h⟩ := bind_ok_iff.1 h
    cases h
    rw [itemCallArgs] at unnamed ⊢
    rw [itemTexts, Target.Value.itemTexts, stringsOf_append]
    exact AllUnescaped.cons
      (unescaped_toValue item first fun arg harg => unnamed arg (List.mem_append_left _ harg))
      (unescaped_itemsToValues rest later fun arg harg =>
        unnamed arg (List.mem_append_right _ harg))

end

/-! ## §6. Strings in the output -/

theorem holds_labelled {text part : String} (h : Holds text part) (name : Option String) :
    Holds (labelled name text) part := by
  cases name with
  | none => exact h
  | some name => exact h.append_left _

theorem holds_grouped {text part : String} (h : Holds text part) (least : Nat) (e : Expression) :
    Holds (grouped least e text) part := by
  unfold grouped
  split
  next => exact (h.append_left _).append_right _
  next => exact h

mutual

/-- **Every string literal of an expression is printed with its backslashes.** -/
theorem holds_write_of_mem_strings {s : String} : (e : Expression) → s ∈ e.strings →
    Holds (e.text .double) (write '"' s)
  | .literal (.string _), hs => by
    rw [strings, List.mem_singleton] at hs
    rw [hs, Expression.text]
    exact Holds.refl _
  | .literal (.number _), hs | .literal (.boolean _), hs | .this, hs | .null, hs => by
    rw [strings] at hs
    cases hs
  | .array items, hs => by
    rw [strings] at hs
    obtain ⟨text, member, held⟩ := exists_mem_itemTexts items hs
    rw [Expression.text]
    exact ((held.intercalate ", " member).append_left _).append_right _
  | .reference target [], hs => by
    rw [strings, argStrings] at hs
    cases hs
  | .reference target (arg :: rest), hs => by
    rw [strings] at hs
    obtain ⟨text, member, held⟩ := exists_mem_argTexts (arg :: rest) hs
    rw [text_reference_cons]
    exact ((held.intercalate ", " member).append_left _).append_right _
  | .invocation function args, hs => by
    rw [strings] at hs
    obtain ⟨text, member, held⟩ := exists_mem_argTexts args hs
    rw [Expression.text]
    exact ((held.intercalate ", " member).append_left _).append_right _
  | .member operand name, hs => by
    rw [strings] at hs
    rw [Expression.text]
    have held := holds_grouped (holds_write_of_mem_strings operand hs) tightest operand
    exact (held.append_right _).append_right _
  | .unary op operand, hs => by
    rw [strings] at hs
    rw [Expression.text]
    exact (holds_grouped (holds_write_of_mem_strings operand hs) tightest operand).append_left _
  | .binary left op right, hs => by
    rw [strings, List.mem_append] at hs
    rw [Expression.text]
    rcases hs with inLeft | inRight
    · have held := holds_grouped (holds_write_of_mem_strings left inLeft) (precedence op) left
      split
      next => exact (((held.append_right _).append_right _).append_right _).append_right _
      next => exact (((held.append_right _).append_right _).append_right _).append_right _
    · have held := holds_write_of_mem_strings right inRight
      split
      next => exact (held.append_left _).append_right _
      next => exact (holds_grouped held (precedence op + 1) right).append_left _

theorem exists_mem_itemTexts {s : String} : (items : List Expression) → s ∈ itemStrings items →
    ∃ text ∈ itemTexts .double items, Holds text (write '"' s)
  | [], hs => by
    rw [itemStrings] at hs
    cases hs
  | item :: rest, hs => by
    rw [itemStrings, List.mem_append] at hs
    rw [itemTexts]
    rcases hs with here | later
    · exact ⟨_, List.mem_cons_self, holds_write_of_mem_strings item here⟩
    · obtain ⟨text, member, held⟩ := exists_mem_itemTexts rest later
      exact ⟨text, List.mem_cons_of_mem _ member, held⟩

theorem exists_mem_argTexts {s : String} : (args : List (Argument Expression)) →
    s ∈ argStrings args → ∃ text ∈ argTexts .double args, Holds text (write '"' s)
  | [], hs => by
    rw [argStrings] at hs
    cases hs
  | ⟨name, value⟩ :: rest, hs => by
    rw [argStrings, List.mem_append] at hs
    rw [argTexts]
    rcases hs with here | later
    · exact ⟨_, List.mem_cons_self,
        holds_labelled (holds_write_of_mem_strings value here) name⟩
    · obtain ⟨text, member, held⟩ := exists_mem_argTexts rest later
      exact ⟨text, List.mem_cons_of_mem _ member, held⟩

end

/-- A string that is passed to a call stands between quotes as it is. -/
theorem mem_callArgTexts {args : List (Argument Expression)} {texts : List String} {s : String}
    (h : callArgTexts args = .ok texts) (hs : s ∈ argStrings args) :
    s ∈ stringsOf args ∧ "\"" ++ s ++ "\"" ∈ texts := by
  have each := mapM_ok_iff.1 h
  clear h
  induction each with
  | nil =>
    rw [argStrings] at hs
    cases hs
  | @cons arg text rest texts first _ ih =>
    rw [argStrings, List.mem_append] at hs
    unfold stringsOf
    rcases hs with here | later
    · -- the only accepted argument with a string in it is a string
      unfold callArgText at first
      split at first
      next s' isString =>
        rw [isString, strings, List.mem_singleton] at here
        cases here
        cases first
        exact ⟨List.mem_filterMap.2 ⟨arg, List.mem_cons_self, by rw [isString]; rfl⟩,
          List.mem_cons_self⟩
      next value not_string isLiteral =>
        cases value with
        | string s' => exact absurd rfl (not_string s')
        | number n | boolean b =>
          rw [isLiteral, strings] at here
          cases here
      next isNull =>
        rw [isNull, strings] at here
        cases here
      next => cases first
    · obtain ⟨passed, member⟩ := ih later
      obtain ⟨arg', harg', isString⟩ := List.mem_filterMap.1 passed
      exact ⟨List.mem_filterMap.2 ⟨arg', List.mem_cons_of_mem _ harg', isString⟩,
        List.mem_cons_of_mem _ member⟩

mutual

/-- **Every string literal of an argument reaches the output with its backslashes**, unless it is
    passed to a call and needs some. -/
theorem holds_write_of_toValue {s : String} : (e : Expression) → {v : Target.Value} →
    e.toValue = .ok v → s ∈ e.strings → (s ∈ e.callStrings → escapes '"' s = 0) →
    Holds v.text (write '"' s)
  | .literal (.string _), _, h, hs, _ => by
    cases h
    rw [strings, List.mem_singleton] at hs
    rw [hs, Target.Value.text]
    exact Holds.refl _
  | .literal (.number _), _, _, hs, _ | .literal (.boolean _), _, _, hs, _ => by
    rw [strings] at hs
    cases hs
  | .array items, _, h, hs, clean => by
    rw [toValue] at h
    obtain ⟨values, ok, h⟩ := bind_ok_iff.1 h
    cases h
    rw [strings] at hs
    unfold callStrings at clean
    rw [callArgs] at clean
    obtain ⟨text, member, held⟩ := exists_mem_valueTexts items ok hs clean
    rw [Target.Value.text]
    exact ((held.intercalate ", " member).append_left _).append_right _
  | .reference target args, _, h, hs, _ => by
    cases h
    rw [text_reference]
    exact holds_write_of_mem_strings _ hs
  | .invocation function args, _, h, hs, clean => by
    rw [toValue] at h
    obtain ⟨texts, ok, h⟩ := bind_ok_iff.1 h
    cases h
    rw [strings] at hs
    unfold callStrings at clean
    rw [callArgs] at clean
    obtain ⟨passed, member⟩ := mem_callArgTexts ok hs
    rw [← Text.Quoted.write_of_escapes_eq_zero (clean passed)] at member
    rw [Target.Value.text]
    exact (((Holds.refl _).intercalate ", " member).append_left _).append_right _
  | .member _ _, _, h, _, _ | .unary _ _, _, h, _, _ | .binary _ _ _, _, h, _, _
  | .this, _, h, _, _ | .null, _, h, _, _ => by cases h

theorem exists_mem_valueTexts {s : String} : (items : List Expression) →
    {values : List Target.Value} → itemsToValues items = .ok values → s ∈ itemStrings items →
    (s ∈ stringsOf (itemCallArgs items) → escapes '"' s = 0) →
    ∃ text ∈ Target.Value.itemTexts values, Holds text (write '"' s)
  | [], _, _, hs, _ => by
    rw [itemStrings] at hs
    cases hs
  | item :: rest, _, h, hs, clean => by
    rw [itemsToValues] at h
    obtain ⟨value, first, h⟩ := bind_ok_iff.1 h
    obtain ⟨values, later, h⟩ := bind_ok_iff.1 h
    cases h
    rw [itemStrings, List.mem_append] at hs
    rw [itemCallArgs, stringsOf_append] at clean
    rw [Target.Value.itemTexts]
    rcases hs with here | there
    · exact ⟨_, List.mem_cons_self, holds_write_of_toValue item first here fun passed =>
        clean (List.mem_append_left _ passed)⟩
    · obtain ⟨text, member, held⟩ := exists_mem_valueTexts rest later there fun passed =>
        clean (List.mem_append_right _ passed)
      exact ⟨text, List.mem_cons_of_mem _ member, held⟩

end

/-- **When an argument is rendered as it is printed.**  Take an expression that is accepted as an
    argument value and whose function calls have no named arguments.  The text of the value is the
    printed expression exactly when no string that is passed to a function call holds a quote or a
    backslash.  Every other string literal, at any depth, stands in the text with its quotes and
    backslashes escaped. -/
theorem rendered_eq_printed_iff {e : Expression} {v : Target.Value} (accepted : e.toValue = .ok v)
    (unnamed : ∀ arg ∈ e.callArgs, arg.name = none) :
    (v.text = e.text .double ↔ ∀ s ∈ e.callStrings, '"' ∉ s.toList ∧ '\\' ∉ s.toList) ∧
      ∀ s ∈ e.strings, (s ∈ e.callStrings → '"' ∉ s.toList ∧ '\\' ∉ s.toList) →
        Holds v.text (write '"' s) := by
  constructor
  · rw [(unescaped_toValue e accepted unnamed).eq_iff]
    exact forall₂_congr fun s _ => Text.Quoted.escapes_eq_zero_iff
  · intro s hs clean
    exact holds_write_of_toValue e accepted hs fun passed =>
      Text.Quoted.escapes_eq_zero_iff.2 (clean passed)

/-- A quoted greeting, a field with an argument and a call of a function, in an array. -/
def greetings : Expression :=
  .array [
    .literal (.string "say \"hi\""),
    .reference "title" [⟨some "ops", .literal (.string "raw\\")⟩],
    .call "dbgenerated" [.literal (.string "now()"), .null]]

/-- The greetings come out as they are printed, the quotes of the first one escaped. -/
theorem greetings_rendered_as_printed :
    ∃ v, greetings.toValue = .ok v ∧ (∀ arg ∈ greetings.callArgs, arg.name = none) ∧
      v.text = greetings.text .double ∧ Holds v.text "\"say \\\"hi\\\"\"" := by
  have unnamed : ∀ arg ∈ greetings.callArgs, arg.name = none := by decide +kernel
  obtain ⟨agree, _⟩ := rendered_eq_printed_iff (e := greetings) rfl unnamed
  refine ⟨_, rfl, unnamed, agree.2 (by decide +kernel), ?_⟩
  exact ⟨"[", ", title(ops: \"raw\\\\\"), dbgenerated(\"now()\", null)]", by decide +kernel⟩

/-- **A rendered argument can differ from the printed one**: the quotes in a string that is passed
    to a function call are not escaped. -/
theorem unescaped_call_argument :
    ∃ v, (call "dbgenerated" [.literal (.string "say \"hi\"")]).toValue = .ok v ∧
      (∀ arg ∈ (call "dbgenerated" [.literal (.string "say \"hi\"")]).callArgs, arg.name = none) ∧
      v.text = "dbgenerated(\"say \"hi\"\")" ∧
      (call "dbgenerated" [.literal (.string "say \"hi\"")]).text .double =
        "dbgenerated(\"say \\\"hi\\\"\")" ∧
      v.text ≠ (call "dbgenerated" [.literal (.string "say \"hi\"")]).text .double :=
  ⟨_, rfl, by decide +kernel, by decide +kernel, by decide +kernel, by decide +kernel⟩

end Expression

end DelegateSchema
