/-
  DelegateSchema.Proofs.StringLiterals — string literals are read back.

  A string literal is its content between quotes, where a backslash stands before every quote and
  every backslash.  Put differently, first every backslash is doubled, and then every quote is given
  a backslash; in the other order the new backslashes would be doubled, too.  A reader that takes a
  backslash together with the character after it, and stops at the first quote not so taken, gets the
  content back, whatever backslashes and quotes it has, and stops at the last character and nowhere
  before.  This holds of both quotes of the printer, and of the values of the target language.

  Main results:
    * `Quoted.escape_eq_replaceEach` — escaping is one replacement after the other,
    * `Quoted.read_append` — a text that is read to an end is read alike in front of others,
    * `Quoted.spells_write` — so the quoted form of a text is read to its last character and not
      less,
    * `string_literals_read_back` — the same of the literals of both languages.
-/
import DelegateSchema.Proofs.Tokens

namespace DelegateSchema

/-! ## §1. Two replacements -/

namespace Text

/-- The text with `new` in place of every `c`. -/
def replaceEach (c : Char) (new s : List Char) : List Char :=
  s.flatMap fun x => if x = c then new else [x]

@[simp]
theorem replaceEach_nil (c : Char) (new : List Char) : replaceEach c new [] = [] := rfl

@[simp]
theorem replaceEach_cons (c x : Char) (new s : List Char) :
    replaceEach c new (x :: s) = (if x = c then new else [x]) ++ replaceEach c new s :=
  List.flatMap_cons

namespace Quoted

variable {quote : Char}

/-- **Escaping is one replacement after the other**, of the backslashes and then of the quotes. -/
theorem escape_eq_replaceEach (isQuote : quote ≠ '\\') (s : List Char) :
    escape quote s = replaceEach quote ['\\', quote] (replaceEach '\\' ['\\', '\\'] s) := by
  have noQuote : '\\' ≠ quote := isQuote.symm
  induction s with
  | nil => rfl
  | cons c s ih =>
    unfold escape
    by_cases backslash : c = '\\'
    · -- the second replacement leaves both backslashes of the first one alone
      subst backslash
      simp [noQuote, ih]
    by_cases special : c = quote
    · subst special
      simp [isQuote, ih]
    · simp [backslash, special, ih]

/-- In the other order, a quote alone gets two backslashes, and a reader stops at it. -/
example : read '"' (replaceEach '\\' ['\\', '\\'] (replaceEach '"' ['\\', '"'] ['"']) ++ ['"']) =
    some (['\\'], ['"']) := by
  decide

/-! ## §2. Reading to the last character -/

/-- **A text that is read to an end is read alike in front of others.**  The induction is on the
    reader: a backslash at the very end of a text would take the first character of what follows,
    but such a text is not read to an end. -/
theorem read_append (isQuote : quote ≠ '\\') {text s after : List Char}
    (h : read quote text = some (s, after)) (more : List Char) :
    read quote (text ++ more) = some (s, after ++ more) := by
  fun_induction read quote text generalizing s after with
  | case1 => cases h
  | case2 c rest ih =>
    obtain ⟨⟨s', after'⟩, found, same⟩ := Option.map_eq_some_iff.1 h
    cases same
    simp [read, ih found]
  | case3 rest noEscape =>
    cases h
    simp [read, isQuote]
  | case4 c rest noEscape noQuote ih =>
    obtain ⟨⟨s', after'⟩, found, same⟩ := Option.map_eq_some_iff.1 h
    cases same
    have noBackslash : c ≠ '\\' := by
      intro backslash
      cases rest with
      | nil => cases found
      | cons next rest => exact noEscape next rest backslash rfl
    simp [read, noBackslash, noQuote, ih found]

/-- Where a reader stops at the last character, it does not stop before. -/
theorem read_eq_none_of_prefix (isQuote : quote ≠ '\\') {content s early : List Char}
    (h : read quote content = some (s, [])) (begins : early <+: content)
    (proper : early ≠ content) : read quote early = none := by
  obtain ⟨more, rfl⟩ := begins
  cases found : read quote early with
  | none => rfl
  | some result =>
    -- the reader would leave the rest of the content behind
    have whole := read_append isQuote found more
    rw [h, Option.some_inj, Prod.mk.injEq] at whole
    have nothing : more = [] := (List.append_eq_nil_iff.1 whole.2.symm).2
    rw [nothing, List.append_nil] at proper
    exact absurd rfl proper

/-- The text is an opening quote and a content that is read as `s`.  The reader stops at the last
    character of the text, and at none before. -/
def Spells (quote : Char) (text s : String) : Prop :=
  ∃ content, text.toList = quote :: content ∧ read quote content = some (s.toList, []) ∧
    ∀ early, early <+: content → early ≠ content → read quote early = none

/-- **The quoted form of a text spells it.** -/
theorem spells_write (isQuote : quote ≠ '\\') (s : String) : Spells quote (write quote s) s := by
  have all : read quote (escape quote s.toList ++ [quote]) = some (s.toList, []) :=
    read_escape isQuote s.toList []
  refine ⟨escape quote s.toList ++ [quote], ?_, all, ?_⟩
  · show (String.ofList _).toList = _
    rw [String.toList_ofList]
    rfl
  · intro early
    exact read_eq_none_of_prefix isQuote all

theorem toList_write (isQuote : quote ≠ '\\') (s : String) :
    (write quote s).toList =
      quote :: replaceEach quote ['\\', quote] (replaceEach '\\' ['\\', '\\'] s.toList) ++
        [quote] := by
  rw [← escape_eq_replaceEach isQuote]
  exact String.toList_ofList

end Quoted

end Text

/-! ## §3. Literals of both languages -/

open Text (replaceEach)
open Text.Quoted (Spells spells_write toList_write)

theorem QuoteStyle.char_ne_backslash (style : QuoteStyle) : style.char ≠ '\\' := by
  cases style <;> decide

/-- **String literals are read back.**  For every string and both quotes, the printed literal is the
    string with its backslashes doubled, its quotes given a backslash, and a quote on each side.
    Read behind its opening quote it gives the string, up to the last character and not before it.
    The same holds of the string as a value of the target language, which is written in double
    quotes as the literal is.  A literal that is the argument of an attribute becomes this value,
    so it is written as it is printed. -/
theorem string_literals_read_back (s : String) :
    (∀ style : QuoteStyle,
      ((Literal.string s).text style).toList = style.char ::
        replaceEach style.char ['\\', style.char] (replaceEach '\\' ['\\', '\\'] s.toList) ++
          [style.char] ∧
      Spells style.char ((Literal.string s).text style) s) ∧
    (Target.Value.string s).text.toList =
      '"' :: replaceEach '"' ['\\', '"'] (replaceEach '\\' ['\\', '\\'] s.toList) ++ ['"'] ∧
    Spells '"' (Target.Value.string s).text s ∧
    (Literal.string s).text .double = (Target.Value.string s).text ∧
    ∃ value, (Expression.literal (.string s)).toValue = .ok value ∧
      value.text = (Expression.literal (.string s)).text .double := by
  have isQuote : '"' ≠ '\\' := by decide
  have rendered : (Target.Value.string s).text = Text.Quoted.write '"' s := by
    rw [Target.Value.text]
  refine ⟨?_, ?_, ?_, ?_, Target.Value.string s, ?_, ?_⟩
  · intro style
    have noBackslash := style.char_ne_backslash
    exact ⟨toList_write noBackslash s, spells_write noBackslash s⟩
  · rw [rendered]
    exact toList_write isQuote s
  · rw [rendered]
    exact spells_write isQuote s
  · rw [rendered]
    rfl
  · rw [Expression.toValue]
  · rw [rendered, Expression.text]
    rfl

end DelegateSchema
