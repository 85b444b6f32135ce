/-
  DelegateSchema.Proofs.Comments — access policies stay in comments, unless a string breaks the line.

  A usage that has no place in the target schema is kept as a comment: its source text after three
  slashes.  The text is meant for one line, but the printer writes the line breaks of string
  literals as they are, and puts the slashes before the first line only.

  Main results:
    * `Guarded` — a text all of whose further lines are comments by themselves,
    * `guarded_write` — quotes and backslashes neither make a line a comment nor keep it from
      being one,
    * `Splices` — a text that is guarded exactly where its strings are,
    * `splices_text` — so is the text of every expression,
    * `docs_are_comments_iff` — all lines of the comments for usages are comments exactly where all
      further lines of their strings are,
    * `policy_leaves_comment` — a policy whose second line is active text.
-/
import DelegateSchema.Proofs.ArgumentText
import DelegateSchema.Text.Blank

namespace DelegateSchema

namespace Text

/-! ## §1. Comment lines -/

/-- The characters of an indentation. -/
def isIndent (c : Char) : Bool :=
  c == ' ' || c == '\t'

/-- The line is a comment: its first characters after the indentation are three slashes. -/
def IsComment (line : List Char) : Prop :=
  ['/', '/', '/'] <+: line.dropWhile isIndent

instance : DecidablePred IsComment :=
  fun _ => inferInstanceAs (Decidable (_ <+: _))

/-- After every line break of the text, a comment begins. -/
def Guarded : List Char → Prop
  | [] => True
  | c :: rest => (c = '\n' → IsComment rest) ∧ Guarded rest

/-- The character is no part of what makes a line a comment. -/
def EndsMark (c : Char) : Prop :=
  isIndent c = false ∧ c ≠ '/'

variable {c : Char} {cs line after : List Char}

theorem isComment_cons_indent (h : isIndent c = true) : IsComment (c :: cs) ↔ IsComment cs := by
  unfold IsComment
  rw [List.dropWhile_cons, if_pos h]

theorem not_isComment_cons (h : EndsMark c) : ¬ IsComment (c :: cs) := by
  unfold IsComment
  rw [List.dropWhile_cons, if_neg (by simp [h.1])]
  intro starts
  exact h.2 (List.cons_prefix_cons.1 starts).1.symm

theorem not_isComment_nil : ¬ IsComment [] := by
  decide

/-- Slashes are looked for before a character that is none. -/
theorem slashes_prefix_append (h : c ≠ '/') {slashes : List Char} (only : ∀ x ∈ slashes, x = '/') :
    slashes <+: line ++ c :: after ↔ slashes <+: line := by
  induction slashes generalizing line with
  | nil => simp
  | cons x slashes ih =>
    have later : ∀ y ∈ slashes, y = '/' := fun y hy => only y (List.mem_cons_of_mem _ hy)
    have first := only x List.mem_cons_self
    cases line with
    | nil =>
      rw [List.nil_append, List.cons_prefix_cons, first]
      simp [h.symm]
    | cons y line =>
      rw [List.cons_append, List.cons_prefix_cons, List.cons_prefix_cons, ih later]

/-- **Whether a line is a comment is decided before such a character.** -/
theorem isComment_append (h : EndsMark c) : IsComment (line ++ c :: after) ↔ IsComment line := by
  induction line with
  | nil => exact iff_of_false (not_isComment_cons h) not_isComment_nil
  | cons x line ih =>
    by_cases indent : isIndent x = true
    · rw [List.cons_append, isComment_cons_indent indent, isComment_cons_indent indent, ih]
    · unfold IsComment
      rw [List.cons_append, List.dropWhile_cons, List.dropWhile_cons, if_neg indent, if_neg indent,
        ← List.cons_append]
      exact slashes_prefix_append h.2 (by simp)

theorem isComment_append_indent (indent : ∀ x ∈ line, isIndent x = true) :
    IsComment (line ++ after) ↔ IsComment after := by
  induction line with
  | nil => rfl
  | cons x line ih =>
    obtain ⟨first, rest⟩ := List.forall_mem_cons.1 indent
    rw [List.cons_append, isComment_cons_indent first, ih rest]

/-! ## §2. Lines of a text -/

/-- A text begins with a comment where its first line is one. -/
theorem exists_first_line (cs : List Char) :
    ∃ first others, cs.splitOn '\n' = first :: others ∧ (IsComment cs ↔ IsComment first) := by
  by_cases broken : '\n' ∈ cs
  · obtain ⟨first, after, rfl, unbroken⟩ := List.eq_append_cons_of_mem broken
    exact ⟨first, after.splitOn '\n', List.splitOn_append_cons_self_of_not_mem unbroken after,
      isComment_append (by constructor <;> decide)⟩
  · exact ⟨cs, [], List.splitOn_eq_singleton broken, Iff.rfl⟩

/-- **The lines after the first are comments exactly where the text is guarded.** -/
theorem guarded_iff (cs : List Char) :
    Guarded cs ↔ ∀ line ∈ (cs.splitOn '\n').tail, IsComment line := by
  induction cs with
  | nil => simp [Guarded]
  | cons c rest ih =>
    obtain ⟨first, others, split, begins⟩ := exists_first_line rest
    rw [split, List.tail_cons] at ih
    unfold Guarded
    rw [List.splitOn_cons_eq_if_modifyHead, split, ih, begins]
    by_cases newline : c = '\n' <;> simp [newline]

/-- All lines of a text are comments where it begins with one and is guarded. -/
theorem forall_lines_iff (cs : List Char) :
    (∀ line ∈ cs.splitOn '\n', IsComment line) ↔ IsComment cs ∧ Guarded cs := by
  obtain ⟨first, others, split, begins⟩ := exists_first_line cs
  rw [guarded_iff, split, List.forall_mem_cons, begins, List.tail_cons]

/-! ## §3. Guarded texts -/

/-- The text has no line break. -/
def OneLine (text : String) : Prop :=
  '\n' ∉ text.toList

instance : DecidablePred OneLine :=
  fun _ => inferInstanceAs (Decidable (¬ _))

theorem oneLine_append {text text' : String} :
    OneLine (text ++ text') ↔ OneLine text ∧ OneLine text' := by
  unfold OneLine
  rw [String.toList_append, List.mem_append, not_or]

theorem guarded_append_plain (plain : '\n' ∉ cs) : Guarded (cs ++ after) ↔ Guarded after := by
  induction cs with
  | nil => rfl
  | cons c rest ih =>
    rw [List.mem_cons, not_or] at plain
    rw [List.cons_append, Guarded, ih plain.2]
    simp [Ne.symm plain.1]

/-- A quote that can stand around a string. -/
structure IsQuote (quote : Char) : Prop where
  endsMark : EndsMark quote
  ne_newline : quote ≠ '\n'

variable {quote : Char}

/-- Backslashes before quotes and backslashes hide no slash. -/
theorem slashes_prefix_escape (h : quote ≠ '/') {slashes : List Char}
    (only : ∀ x ∈ slashes, x = '/') :
    slashes <+: Quoted.escape quote line ↔ slashes <+: line := by
  induction slashes generalizing line with
  | nil => simp
  | cons x slashes ih =>
    have later : ∀ y ∈ slashes, y = '/' := fun y hy => only y (List.mem_cons_of_mem _ hy)
    cases line with
    | nil => rfl
    | cons y line =>
      unfold Quoted.escape
      cases only x List.mem_cons_self
      by_cases special : y = '\\' ∨ y = quote
      · rw [if_pos special, List.cons_prefix_cons, List.cons_prefix_cons]
        have other : '/' ≠ y := by
          rcases special with rfl | rfl
          · decide
          · exact h.symm
        simp [other]
      · rw [if_neg special, List.cons_prefix_cons, List.cons_prefix_cons, ih later]

theorem isComment_escape (h : EndsMark quote) :
    IsComment (Quoted.escape quote line) ↔ IsComment line := by
  induction line with
  | nil => rfl
  | cons c line ih =>
    unfold Quoted.escape
    by_cases special : c = '\\' ∨ c = quote
    · -- neither the backslash nor what it stands before begins a comment
      have ends : EndsMark c := by
        rcases special with rfl | rfl
        · constructor <;> decide
        · exact h
      rw [if_pos special]
      exact iff_of_false (not_isComment_cons (by constructor <;> decide)) (not_isComment_cons ends)
    · rw [if_neg special]
      by_cases indent : isIndent c = true
      · rw [isComment_cons_indent indent, isComment_cons_indent indent, ih]
      · unfold IsComment
        rw [List.dropWhile_cons, List.dropWhile_cons, if_neg indent, if_neg indent]
        have escaped : c :: Quoted.escape quote line = Quoted.escape quote (c :: line) := by
          rw [Quoted.escape, if_neg special]
        rw [escaped]
        exact slashes_prefix_escape h.2 (by simp)

/-- **A quoted string is guarded exactly where the string is**, and what follows it. -/
theorem guarded_write (h : IsQuote quote) (s : String) :
    Guarded ((Quoted.write quote s).toList ++ after) ↔ Guarded s.toList ∧ Guarded after := by
  have content : ∀ cs, Guarded (Quoted.escape quote cs ++ quote :: after) ↔
      Guarded cs ∧ Guarded after := by
    intro cs
    induction cs with
    | nil => simp [Quoted.escape, Guarded, h.ne_newline]
    | cons c cs ih =>
      have begins : IsComment (Quoted.escape quote cs ++ quote :: after) ↔ IsComment cs := by
        rw [isComment_append h.endsMark, isComment_escape h.endsMark]
      rw [Quoted.escape]
      by_cases special : c = '\\' ∨ c = quote
      · have noBreak : c ≠ '\n' := by
          rcases special with rfl | rfl
          · decide
          · exact h.ne_newline
        simp [special, Guarded, ih, noBreak]
      · rw [if_neg special, List.cons_append, Guarded, Guarded, begins, ih, and_assoc]
  unfold Quoted.write
  rw [String.toList_ofList, List.cons_append, List.cons_append, Guarded, List.append_assoc,
    List.singleton_append, content]
  simp [h.ne_newline]

/-! ## §4. Texts made of strings -/

/-- The line breaks of a text are those of its strings: whatever follows the text, it is guarded
    exactly where the strings are. -/
def Splices (strings : List String) (text : String) : Prop :=
  ∀ after, Guarded (text.toList ++ after) ↔
    (∀ s ∈ strings, Guarded s.toList) ∧ Guarded after

namespace Splices

variable {strings strings' : List String} {text text' : String}

theorem plain (h : OneLine text) : Splices [] text := by
  intro after
  rw [guarded_append_plain h]
  simp

theorem write (h : IsQuote quote) (s : String) : Splices [s] (Quoted.write quote s) := by
  intro after
  rw [guarded_write h]
  simp

theorem append (h : Splices strings text) (h' : Splices strings' text') :
    Splices (strings ++ strings') (text ++ text') := by
  intro after
  rw [String.toList_append, List.append_assoc, h, h', List.forall_mem_append, and_assoc]

theorem before (h : Splices strings text) (h' : OneLine text') :
    Splices strings (text' ++ text) := by
  have both := (plain h').append h
  rwa [List.nil_append] at both

theorem behind (h : Splices strings text) (h' : OneLine text') :
    Splices strings (text ++ text') := by
  have both := h.append (plain h')
  rwa [List.append_nil] at both

theorem intercalate_cons {between : String} {texts : List String} (first : Splices strings text)
    (rest : Splices strings' (between.intercalate texts)) (h : OneLine between) :
    Splices (strings ++ strings') (between.intercalate (text :: texts)) := by
  cases texts with
  | nil =>
    -- the rest is empty, and its strings are as good as none
    rw [String.intercalate_singleton]
    have both := first.append rest
    rwa [String.intercalate_nil, String.append_empty] at both
  | cons next texts =>
    rw [String.intercalate_cons_cons]
    exact (first.behind h).append rest

/-- A text is guarded exactly where its strings are. -/
theorem guarded_iff (h : Splices strings text) :
    Guarded text.toList ↔ ∀ s ∈ strings, Guarded s.toList := by
  have alone := h []
  rw [List.append_nil] at alone
  rw [alone]
  simp [Guarded]

end Splices

end Text

open Text

/-! ## §5. Numbers -/

namespace Number

theorem oneLine_digits {n : Nat} {digits : List Char} (part : digits ⊆ Nat.toDigits 10 n) :
    OneLine (String.ofList digits) := by
  unfold OneLine
  rw [String.toList_ofList]
  intro h
  have digit := Nat.isDigit_of_mem_toDigits (by decide) (by decide) (part h)
  exact absurd digit (by decide)

theorem oneLine_repr (n : Nat) : OneLine (Nat.repr n) := by
  rw [Nat.repr_eq_ofList_toDigits]
  exact oneLine_digits (List.Subset.refl _)

theorem oneLine_zeros (count : Nat) : OneLine (zeros count) := by
  unfold OneLine zeros
  rw [String.toList_ofList]
  intro h
  exact absurd (List.eq_of_mem_replicate h) (by decide)

theorem oneLine_decimalText (style : Layout) (d : Decimal) : OneLine (d.text style) := by
  have all : OneLine (String.ofList (Nat.toDigits 10 d.digits)) :=
    oneLine_digits (List.Subset.refl _)
  have start : ∀ n, OneLine (String.ofList ((Nat.toDigits 10 d.digits).take n)) :=
    fun n => oneLine_digits (List.take_subset _ _)
  have rest : ∀ n, OneLine (String.ofList ((Nat.toDigits 10 d.digits).drop n)) :=
    fun n => oneLine_digits (List.drop_subset _ _)
  unfold Decimal.text
  dsimp only
  split
  · exact oneLine_append.2 ⟨oneLine_append.2 ⟨all, oneLine_zeros _⟩, by decide⟩
  · split
    · exact oneLine_append.2 ⟨oneLine_append.2 ⟨start _, by decide⟩, rest _⟩
    · split
      · exact oneLine_append.2 ⟨oneLine_append.2 ⟨by decide, oneLine_zeros _⟩, all⟩
      · have fraction : OneLine (if (Nat.toDigits 10 d.digits).length = 1 then ""
            else "." ++ String.ofList ((Nat.toDigits 10 d.digits).drop 1)) := by
          split
          · decide
          · exact oneLine_append.2 ⟨by decide, rest 1⟩
        have sign : ∀ exponent : Int, OneLine (if 0 ≤ exponent then "+" else "-") := by
          intro exponent
          split <;> decide
        simp only [oneLine_append]
        exact ⟨⟨⟨⟨start 1, fraction⟩, by decide⟩, sign _⟩, oneLine_repr _⟩

theorem oneLine_binaryText (bits : UInt64) : OneLine (binaryText bits) := by
  unfold binaryText
  extract_lets sign exponent fraction
  have hsign : OneLine sign := by
    unfold sign
    split <;> decide
  split
  · exact oneLine_append.2 ⟨hsign, by decide⟩
  · exact oneLine_append.2 ⟨hsign, oneLine_decimalText _ _⟩

/-- Numbers are written on one line. -/
theorem oneLine_text (n : Number) : OneLine n.text := by
  cases n with
  | whole value =>
    rw [text]
    split
    · exact oneLine_append.2 ⟨by decide, oneLine_repr _⟩
    · exact oneLine_repr _
  | binary bits => exact oneLine_binaryText bits

end Number

/-! ## §6. Expressions -/

theorem QuoteStyle.isQuote (style : QuoteStyle) : IsQuote style.char := by
  cases style with
  | single => exact ⟨⟨by decide, by decide⟩, by decide⟩
  | double => exact ⟨⟨by decide, by decide⟩, by decide⟩

/-- A name before a text changes nothing. -/
theorem splices_labelled {strings : List String} {text : String} (h : Splices strings text)
    {name : Option String} (word : ∀ w ∈ name.toList, OneLine w) :
    Splices strings (labelled name text) := by
  unfold labelled
  cases name with
  | none => exact h
  | some name =>
    exact h.before (oneLine_append.2 ⟨word name (by simp), by decide⟩)

namespace Expression

/-- Parentheses around an operand change nothing. -/
theorem splices_grouped {strings : List String} {text : String} (h : Splices strings text)
    (least : Nat) (e : Expression) : Splices strings (grouped least e text) := by
  unfold grouped
  split
  · exact (h.before (by decide)).behind (by decide)
  · exact h

mutual

/-- The names and operators in an expression, at any depth. -/
def words : Expression → List String
  | .literal _ => []
  | .array items => itemWords items
  | .reference target args => target :: argWords args
  | .invocation function args => function :: argWords args
  | .member operand name => name :: operand.words
  | .unary op operand => op :: operand.words
  | .binary left op right => op :: (left.words ++ right.words)
  | .this => []
  | .null => []

/-- The names and operators in the items of an array. -/
def itemWords : List Expression → List String
  | [] => []
  | item :: rest => item.words ++ itemWords rest

/-- The names and operators in arguments, with the names of the arguments. -/
def argWords : List (Argument Expression) → List String
  | [] => []
  | ⟨name, value⟩ :: rest => name.toList ++ value.words ++ argWords rest

end

mutual

/-- **The text of an expression has the line breaks of its strings and no others.** -/
theorem splices_text (style : QuoteStyle) : (e : Expression) → (∀ w ∈ e.words, OneLine w) →
    Splices e.strings (e.text style)
  | .literal (.string s), _ => by
    rw [Expression.text, strings]
    exact Splices.write style.isQuote s
  | .literal (.number n), _ => by
    rw [Expression.text, strings]
    exact Splices.plain n.oneLine_text
  | .literal (.boolean b), _ => by
    rw [Expression.text, strings]
    cases b with
    | false => exact Splices.plain (show OneLine "false" by decide)
    | true => exact Splices.plain (show OneLine "true" by decide)
  | .array items, words => by
    rw [Expression.words] at words
    rw [Expression.text, strings]
    exact ((splices_itemTexts style items words).before (by decide)).behind (by decide)
  | .reference target args, words => by
    rw [Expression.words, List.forall_mem_cons] at words
    obtain ⟨target_ok, args_ok⟩ := words
    rw [strings]
    cases args with
    | nil =>
      rw [Expression.text, argStrings]
      exact Splices.plain target_ok
    | cons arg rest =>
      rw [text_reference_cons]
      exact ((splices_argTexts style (arg :: rest) args_ok).before
        (oneLine_append.2 ⟨target_ok, by decide⟩)).behind (by decide)
  | .invocation function args, words => by
    rw [Expression.words, List.forall_mem_cons] at words
    rw [Expression.text, strings]
    exact ((splices_argTexts style args words.2).before
      (oneLine_append.2 ⟨words.1, by decide⟩)).behind (by decide)
  | .member operand name, words => by
    rw [Expression.words, List.forall_mem_cons] at words
    rw [Expression.text, strings]
    have grouped := splices_grouped (splices_text style operand words.2) tightest operand
    exact (grouped.behind (by decide)).behind words.1
  | .unary op operand, words => by
    rw [Expression.words, List.forall_mem_cons] at words
    rw [Expression.text, strings]
    exact (splices_grouped (splices_text style operand words.2) tightest operand).before words.1
  | .binary left op right, words => by
    rw [Expression.words, List.forall_mem_cons, List.forall_mem_append] at words
    obtain ⟨op_ok, left_ok, right_ok⟩ := words
    rw [Expression.text, strings]
    have leftText := splices_grouped (splices_text style left left_ok) (precedence op) left
    have rightText := splices_text style right right_ok
    split
    · exact (((leftText.behind op_ok).behind (by decide)).append rightText).behind (by decide)
    · exact (((leftText.behind (by decide)).behind op_ok).behind (by decide)).append
        (splices_grouped rightText (precedence op + 1) right)
  | .this, _ => by
    rw [Expression.text, strings]
    exact Splices.plain (by decide)
  | .null, _ => by
    rw [Expression.text, strings]
    exact Splices.plain (by decide)

theorem splices_itemTexts (style : QuoteStyle) : (items : List Expression) →
    (∀ w ∈ itemWords items, OneLine w) →
    Splices (itemStrings items) (", ".intercalate (itemTexts style items))
  | [], _ => by
    rw [itemTexts, itemStrings]
    exact Splices.plain (by decide)
  | item :: rest, words => by
    rw [itemWords, List.forall_mem_append] at words
    rw [itemTexts, itemStrings]
    exact (splices_text style item words.1).intercalate_cons
      (splices_itemTexts style rest words.2) (by decide)

theorem splices_argTexts (style : QuoteStyle) : (args : List (Argument Expression)) →
    (∀ w ∈ argWords args, OneLine w) →
    Splices (argStrings args) (", ".intercalate (argTexts style args))
  | [], _ => by
    rw [argTexts, argStrings]
    exact Splices.plain (by decide)
  | ⟨name, value⟩ :: rest, words => by
    rw [argWords, List.forall_mem_append, List.forall_mem_append] at words
    obtain ⟨⟨name_ok, value_ok⟩, rest_ok⟩ := words
    rw [argTexts, argStrings]
    exact (splices_labelled (splices_text style value value_ok) name_ok).intercalate_cons
      (splices_argTexts style rest rest_ok) (by decide)

end

end Expression

/-! ## §7. Usages -/

namespace Attribute

/-- The string literals in a usage. -/
def strings (a : Attribute) : List String :=
  a.args.flatMap fun arg => arg.value.strings

/-- The names and operators in a usage: its own name, and those of its arguments. -/
def words (a : Attribute) : List String :=
  a.name :: a.args.flatMap fun arg => arg.name.toList ++ arg.value.words

theorem splices_text (style : QuoteStyle) {a : Attribute} (words : ∀ w ∈ a.words, OneLine w) :
    Splices a.strings (a.text style) := by
  obtain ⟨name_ok, args_ok⟩ := List.forall_mem_cons.1 words
  have args : ∀ args : List AttributeArg,
      (∀ w ∈ args.flatMap (fun arg => arg.name.toList ++ arg.value.words), OneLine w) →
      Splices (args.flatMap fun arg => arg.value.strings)
        (", ".intercalate (args.map fun arg => labelled arg.name (arg.value.text style))) := by
    intro args ok
    induction args with
    | nil => exact Splices.plain (show OneLine "" by decide)
    | cons arg args ih =>
      rw [List.flatMap_cons, List.forall_mem_append, List.forall_mem_append] at ok
      obtain ⟨⟨label_ok, value_ok⟩, rest_ok⟩ := ok
      rw [List.flatMap_cons, List.map_cons]
      exact (splices_labelled (Expression.splices_text style arg.value value_ok)
        label_ok).intercalate_cons (ih rest_ok) (by decide)
  unfold text strings
  split
  next none =>
    rw [List.isEmpty_iff.1 none]
    exact Splices.plain name_ok
  next =>
    exact ((args a.args args_ok).before (oneLine_append.2 ⟨name_ok, by decide⟩)).behind (by decide)

/-- **The comment for a usage is guarded exactly where its strings are.** -/
theorem guarded_doc {a : Attribute} (words : ∀ w ∈ a.words, OneLine w) :
    Guarded a.doc.toList ↔ ∀ s ∈ a.strings, Guarded s.toList :=
  ((splices_text .single words).before (by decide)).guarded_iff

end Attribute

/-- The lines of a text that end with a line break. -/
def Text.endedLines (text : String) : List (List Char) :=
  (text.toList.splitOn '\n').dropLast

/-- Each comment is written on its own lines. -/
theorem endedLines_docText (before : String) (docs : List String) :
    endedLines (Target.docText before docs) =
      docs.flatMap fun doc => (before.toList ++ doc.toList).splitOn '\n' := by
  unfold endedLines
  induction docs with
  | nil => rfl
  | cons doc docs ih =>
    have chars : (Target.docText before (doc :: docs)).toList =
        before.toList ++ doc.toList ++ '\n' :: (Target.docText before docs).toList := by
      show (before ++ doc ++ "\n" ++ Target.docText before docs).toList = _
      simp [String.toList_append]
    rw [List.flatMap_cons, ← ih, chars, List.splitOn_append_cons_self,
      List.dropLast_append_of_ne_nil (List.splitOn_ne_nil _ _)]

/-- The lines that are written for one usage. -/
theorem doc_lines_iff {before : String} (blank : ∀ c ∈ before.toList, isIndent c = true)
    {a : Attribute} (words : ∀ w ∈ a.words, OneLine w) :
    (∀ line ∈ (before.toList ++ a.doc.toList).splitOn '\n', IsComment line) ↔
      ∀ s ∈ a.strings, ∀ line ∈ (s.toList.splitOn '\n').tail, IsComment line := by
  have begins : IsComment (before.toList ++ a.doc.toList) := by
    rw [isComment_append_indent blank]
    have slashes : a.doc.toList = ['/', '/', '/'] ++ ' ' :: (a.text .single).toList := by
      simp [Attribute.doc, String.toList_append]
    rw [slashes]
    exact List.prefix_append _ _
  have oneLine : '\n' ∉ before.toList := by
    intro h
    exact absurd (blank _ h) (by decide)
  rw [forall_lines_iff, and_iff_right begins, guarded_append_plain oneLine,
    Attribute.guarded_doc words]
  simp only [guarded_iff]

/-- **Comments stay comments exactly where the lines of strings are comments.**  Let the names and
    operators of usages have no line break; their strings may have any.  The lines that are written
    for the usages outside the target schema, at the level of a block or of a field, all begin with
    three slashes exactly where in the strings of these usages, every line after the first begins
    with three slashes by itself. -/
theorem docs_are_comments_iff {before : String} (blank : ∀ c ∈ before.toList, isIndent c = true)
    {attributes : List Attribute}
    (words : ∀ a ∈ attributes, a.resolved.isSome = true → a.isTarget = false →
      ∀ w ∈ a.words, OneLine w) :
    (∀ line ∈ endedLines (Target.docText before (attributeDocs attributes)), IsComment line) ↔
      ∀ a ∈ attributes, a.resolved.isSome = true → a.isTarget = false → ∀ s ∈ a.strings,
        ∀ line ∈ (s.toList.splitOn '\n').tail, IsComment line := by
  rw [endedLines_docText]
  unfold attributeDocs
  constructor
  · intro all a ha resolved source
    refine (doc_lines_iff blank (words a ha resolved source)).1 ?_
    intro line hline
    have documented := List.mem_filter (p := fun a : Attribute => a.resolved.isSome && !a.isTarget)
      |>.2 ⟨ha, by simp [resolved, source]⟩
    exact all line (List.mem_flatMap.2 ⟨a.doc, List.mem_map.2 ⟨a, documented, rfl⟩, hline⟩)
  · intro all line hline
    obtain ⟨_, hdoc, hline⟩ := List.mem_flatMap.1 hline
    obtain ⟨a, ha, rfl⟩ := List.mem_map.1 hdoc
    obtain ⟨ha, documented⟩ := List.mem_filter.1 ha
    simp only [Bool.and_eq_true, Bool.not_eq_true'] at documented
    obtain ⟨resolved, source⟩ := documented
    exact (doc_lines_iff blank (words a ha resolved source)).2 (all a ha resolved source) line hline

/-- Notes of a title are not to be read. -/
def titlePolicy (title : String) : Attribute where
  name := "@@deny"
  args := [
    { name := none, value := .literal (.string "read") },
    { name := none, value := .binary (.ref "title") "==" (.literal (.string title)) }]
  resolved := some { name := "@@deny", target := false }

/-- A policy about a title of one line, or of lines that are comments, stays in comments at both
    levels. -/
theorem policies_stay_comments :
    (Target.docText "" (attributeDocs [titlePolicy "it's \\ all"]) =
        "/// @@deny('read', title == 'it\\'s \\\\ all')\n" ∧
      ∀ line ∈ endedLines (Target.docText "" (attributeDocs [titlePolicy "it's \\ all"])),
        IsComment line) ∧
    (Target.docText Target.indent (attributeDocs [titlePolicy "first\n  /// second"]) =
        "    /// @@deny('read', title == 'first\n  /// second')\n" ∧
      ∀ line ∈ endedLines
          (Target.docText Target.indent (attributeDocs [titlePolicy "first\n  /// second"])),
        IsComment line) := by
  refine ⟨⟨by decide +kernel, ?_⟩, by decide +kernel, ?_⟩
  · exact (docs_are_comments_iff (List.all_eq_true.1 (by decide)) (by decide +kernel)).2
      (by decide +kernel)
  · exact (docs_are_comments_iff (List.all_eq_true.1 (by decide)) (by decide +kernel)).2
      (by decide +kernel)

/-- **A policy can leave its comment**: where the title has two lines, the second one stands in the
    schema as it is. -/
theorem policy_leaves_comment :
    (titlePolicy "first\nsecond").resolved.isSome = true ∧
      (titlePolicy "first\nsecond").isTarget = false ∧
      (∀ w ∈ (titlePolicy "first\nsecond").words, OneLine w) ∧
      Target.docText "" (attributeDocs [titlePolicy "first\nsecond"]) =
        "/// @@deny('read', title == 'first\nsecond')\n" ∧
      "second')".toList ∈
        endedLines (Target.docText "" (attributeDocs [titlePolicy "first\nsecond"])) ∧
      ¬ IsComment "second')".toList := by
  decide +kernel

end DelegateSchema
