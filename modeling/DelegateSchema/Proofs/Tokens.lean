/-
  DelegateSchema.Proofs.Tokens — the words and signs of a printed expression.

  The text of an expression is made of tokens: words, quoted strings, operators with a blank on
  each side, and single signs.  The first character of a text tells the kind of the first token, and
  each kind tells its end: a word ends at the first character that belongs to no name, a string at
  its closing quote, an operator at the next blank.  So where no two words stand next to each other,
  a text can be cut into tokens in one way only.

  Main results:
    * `Text.Quoted.read_escape` — a quoted text is read up to its closing quote,
    * `Token.next?_append` — the first token of a text is found,
    * `Token.join_inj` — equal texts have equal tokens,
    * `Expression.toList_text` — the text of an expression is the text of its tokens,
    * `Expression.tokens_eq_of_text_eq` — so expressions with equal texts have equal tokens.
-/
import DelegateSchema.Proofs.ArgumentText
import Mathlib.Data.List.Basic

namespace DelegateSchema

/-! ## §1. Names -/

namespace Text

/-- A letter of any alphabet; every character beyond ASCII counts as one. -/
def isLetter (c : Char) : Bool :=
  c.isAlpha || 128 ≤ c.toNat

/-- A character of a name. -/
def isNameChar (c : Char) : Bool :=
  isLetter c || c.isDigit || c == '_'

/-! ## §2. Quoted texts -/

/-- Reads a content up to its closing quote, the first one without a backslash before it; gives the
    content and what follows the quote, or nothing when there is no such quote. -/
def Quoted.read (quote : Char) : List Char → Option (List Char × List Char)
  | [] => none
  | '\\' :: c :: rest => (read quote rest).map fun (s, after) => (c :: s, after)
  | c :: rest =>
    if c = quote then some ([], rest)
    else (read quote rest).map fun (s, after) => (c :: s, after)

/-- **A quoted text is read up to its closing quote.** -/
theorem Quoted.read_escape {quote : Char} (isQuote : quote ≠ '\\') (s rest : List Char) :
    read quote (escape quote s ++ quote :: rest) = some (s, rest) := by
  induction s with
  | nil => simp [escape, read, isQuote]
  | cons c s ih =>
    unfold escape
    by_cases special : c = '\\' ∨ c = quote
    · simp [if_pos special, read, ih]
    · obtain ⟨noBackslash, noQuote⟩ := not_or.1 special
      simp [read, noBackslash, noQuote, ih]

end Text

open Text (isNameChar)

/-! ## §3. Tokens -/

inductive Bracket where
  | round
  | square
  deriving DecidableEq

/-- The parts that the text of an expression is made of. -/
inductive Token where
  /-- A name, or a word of the language. -/
  | word (text : String)
  /-- A quoted string, by its content. -/
  | string (content : String)
  /-- An operator between its operands. -/
  | operator (op : String)
  /-- An operator without blanks: before its operand, or before a bracket. -/
  | sign (op : String)
  | opening (bracket : Bracket)
  | closing (bracket : Bracket)
  | dot
  | comma

namespace Token

/-- The text of a token. -/
def chars (style : QuoteStyle) : Token → List Char
  | .word text => text.toList
  | .string content => style.char :: (Text.Quoted.escape style.char content.toList ++ [style.char])
  | .operator op => ' ' :: (op.toList ++ [' '])
  | .sign op => op.toList
  | .opening .round => ['(']
  | .closing .round => [')']
  | .opening .square => ['[']
  | .closing .square => [']']
  | .dot => ['.']
  | .comma => [',', ' ']

/-- The text of a row of tokens. -/
def join (style : QuoteStyle) (tokens : List Token) : List Char :=
  tokens.flatMap (chars style)

/-- The token that a single character is. -/
def ofChar : Char → Token
  | '(' => .opening .round
  | ')' => .closing .round
  | '[' => .opening .square
  | ']' => .closing .square
  | '.' => .dot
  | c => .sign (String.ofList [c])

/-- The first token of a text, and what follows it. -/
def next? (style : QuoteStyle) : List Char → Option (Token × List Char)
  | [] => none
  | c :: rest =>
    if isNameChar c then
      some (.word (String.ofList ((c :: rest).takeWhile isNameChar)),
        (c :: rest).dropWhile isNameChar)
    else if c = style.char then
      (Text.Quoted.read style.char rest).map fun (s, after) => (.string (String.ofList s), after)
    else if c = ' ' then
      some (.operator (String.ofList (rest.takeWhile (· != ' '))), (rest.dropWhile (· != ' ')).tail)
    else if c = ',' then some (.comma, rest.tail)
    else some (ofChar c, rest)

def isWord : Token → Bool
  | .word _ => true
  | _ => false

/-- Whether a token can be found again in a text. -/
def wellFormed : Token → Bool
  | .word text => !text.toList.isEmpty && text.toList.all isNameChar
  | .operator op => op.toList.all (· != ' ')
  | .sign op => ["!", "?", "^"].contains op
  | _ => true

variable {style : QuoteStyle} {rest : List Char}

/-- A run of characters is found in front of one that ends it. -/
theorem takeWhile_run (p : Char → Bool) {run : List Char} (all : ∀ c ∈ run, p c = true)
    (ends : ∀ c ∈ rest.head?, p c = false) :
    (run ++ rest).takeWhile p = run ∧ (run ++ rest).dropWhile p = rest := by
  rw [List.takeWhile_append_of_pos all, List.dropWhile_append_of_pos all]
  cases rest with
  | nil => simp
  | cons c rest => simp [ends c rfl]

theorem next?_word {text : String} (sound : (word text).wellFormed = true)
    (ends : ∀ c ∈ rest.head?, isNameChar c = false) :
    next? style (text.toList ++ rest) = some (.word text, rest) := by
  simp only [wellFormed, Bool.and_eq_true, List.all_eq_true] at sound
  obtain ⟨nonempty, all⟩ := sound
  obtain ⟨taken, dropped⟩ := takeWhile_run isNameChar all ends
  cases chars : text.toList with
  | nil =>
    rw [chars] at nonempty
    cases nonempty
  | cons c cs =>
    rw [chars] at all taken dropped
    rw [List.cons_append] at taken dropped ⊢
    rw [next?, if_pos (all c List.mem_cons_self), taken, dropped, ← chars, String.ofList_toList]

theorem next?_string (content : String) :
    next? style ((string content).chars style ++ rest) = some (.string content, rest) := by
  have isQuote : style.char ≠ '\\' := by cases style <;> decide
  have noName : isNameChar style.char = false := by cases style <;> decide
  have read := Text.Quoted.read_escape isQuote content.toList rest
  simp [chars, next?, noName, read]

theorem next?_operator {op : String} (sound : (operator op).wellFormed = true) :
    next? style ((operator op).chars style ++ rest) = some (.operator op, rest) := by
  have noName : isNameChar ' ' = false := by decide
  have noQuote : ' ' ≠ style.char := by cases style <;> decide
  obtain ⟨taken, dropped⟩ : (op.toList ++ ' ' :: rest).takeWhile (· != ' ') = op.toList ∧
      (op.toList ++ ' ' :: rest).dropWhile (· != ' ') = ' ' :: rest :=
    takeWhile_run (· != ' ') (List.all_eq_true.1 sound) (by simp)
  simp [chars, next?, noName, noQuote, taken, dropped]

theorem mem_signs {op : String} (sound : (sign op).wellFormed = true) :
    op = "!" ∨ op = "?" ∨ op = "^" := by
  simpa [wellFormed] using sound

theorem next?_sign {op : String} (sound : (sign op).wellFormed = true) :
    next? style (op.toList ++ rest) = some (.sign op, rest) := by
  rcases mem_signs sound with rfl | rfl | rfl <;> cases style <;> rfl

/-- **The first token of a text is found**, a word if the text does not go on as a name. -/
theorem next?_append {t : Token} (sound : t.wellFormed = true)
    (ends : t.isWord = true → ∀ c ∈ rest.head?, isNameChar c = false) :
    next? style (t.chars style ++ rest) = some (t, rest) := by
  cases t with
  | word text => exact next?_word sound (ends rfl)
  | string content => exact next?_string content
  | operator op => exact next?_operator sound
  | sign op => exact next?_sign sound
  | opening bracket => cases bracket <;> cases style <;> rfl
  | closing bracket => cases bracket <;> cases style <;> rfl
  | dot => cases style <;> rfl
  | comma => cases style <;> rfl

/-! ## §4. Rows of tokens -/

/-- The tokens are well formed, and no word follows on a word. -/
def Spaced : List Token → Prop
  | [] => True
  | t :: ts =>
    t.wellFormed = true ∧ (t.isWord = true → ∀ t' ∈ ts.head?, t'.isWord = false) ∧ Spaced ts

/-- Only a word begins like a name. -/
theorem exists_head_of_not_isWord (style : QuoteStyle) {t : Token}
    (sound : t.wellFormed = true) (noWord : t.isWord = false) :
    ∃ c rest, t.chars style = c :: rest ∧ isNameChar c = false := by
  cases t with
  | word text => cases noWord
  | string content => exact ⟨_, _, rfl, by cases style <;> decide⟩
  | operator op => exact ⟨_, _, rfl, by decide⟩
  | sign op =>
    rcases mem_signs sound with rfl | rfl | rfl <;> exact ⟨_, _, rfl, by decide⟩
  | opening bracket => cases bracket <;> exact ⟨_, _, rfl, by decide⟩
  | closing bracket => cases bracket <;> exact ⟨_, _, rfl, by decide⟩
  | dot => exact ⟨_, _, rfl, by decide⟩
  | comma => exact ⟨_, _, rfl, by decide⟩

theorem Spaced.next?_join (style : QuoteStyle) {t : Token} {ts : List Token}
    (spaced : Spaced (t :: ts)) :
    next? style (join style (t :: ts)) = some (t, join style ts) := by
  obtain ⟨sound, noWord, later⟩ := spaced
  refine next?_append sound fun isWord => ?_
  cases ts with
  | nil => simp
  | cons t' ts =>
    obtain ⟨c, rest, chars, ends⟩ := exists_head_of_not_isWord style later.1 (noWord isWord t' rfl)
    simp [chars, ends]

/-- **Equal texts have equal tokens.** -/
theorem join_inj (style : QuoteStyle) {ts ts' : List Token} (spaced : Spaced ts)
    (spaced' : Spaced ts') (same : join style ts = join style ts') : ts = ts' := by
  induction ts generalizing ts' with
  | nil =>
    cases ts' with
    | nil => rfl
    | cons t' ts' =>
      have found := spaced'.next?_join style
      rw [← same] at found
      cases found
  | cons t ts ih =>
    -- the first token of the common text is the first one of both rows
    have found := spaced.next?_join style
    rw [same] at found
    cases ts' with
    | nil => cases found
    | cons t' ts' =>
      rw [spaced'.next?_join] at found
      obtain ⟨rfl, later⟩ := Prod.mk.inj (Option.some.inj found)
      rw [ih spaced.2.2 spaced'.2.2 later.symm]

theorem join_intercalate (style : QuoteStyle) (rows : List (List Token)) :
    join style ([comma].intercalate rows) = [',', ' '].intercalate (rows.map (join style)) := by
  induction rows with
  | nil => rfl
  | cons row rows ih =>
    cases rows with
    | nil => simp
    | cons row' rows =>
      rw [List.intercalate_cons_cons, List.map_cons, List.map_cons, List.intercalate_cons_cons,
        ← List.map_cons, ← ih]
      simp [join, chars]

/-- Tokens that may stand behind a word. -/
def Breaks (ts : List Token) : Prop :=
  Spaced ts ∧ ∀ t ∈ ts.head?, t.isWord = false

theorem breaks_nil : Breaks [] :=
  ⟨trivial, by simp⟩

theorem Spaced.breaks_cons {t : Token} {ts : List Token} (spaced : Spaced ts)
    (sound : t.wellFormed = true) (noWord : t.isWord = false) : Breaks (t :: ts) := by
  refine ⟨⟨sound, by simp [noWord], spaced⟩, ?_⟩
  rintro t' ⟨⟩
  exact noWord

theorem Breaks.spaced_word {text : String} {ts : List Token} (breaks : Breaks ts)
    (sound : (word text).wellFormed = true) : Spaced (word text :: ts) :=
  ⟨sound, fun _ => breaks.2, breaks.1⟩

end Token

namespace Expression

/-! ## §5. Expressions that can be read -/

/-- The words that are no names. -/
def reserved : List String :=
  ["this", "null", "true", "false", "in"]

/-- Whether a text is a name: letters, digits and underscores after a letter, and no reserved
    word. -/
def isName (name : String) : Bool :=
  name.toList.head?.any Text.isLetter && name.toList.all Text.isNameChar && !reserved.contains name

def isUnary : Expression → Bool
  | .unary _ _ => true
  | _ => false

/-- The operators between two operands that stand side by side. -/
def operators : List String :=
  ["||", "&&", "==", "!=", "<", "<=", ">", ">=", "in"]

/-- The operators whose right side stands in brackets. -/
def predicates : List String :=
  ["?", "!", "^"]

/-- The expressions whose grouping can be read: references and function calls by names, `this`,
    `null`, strings, booleans and arrays, member access, negation and the operators.  What a member
    or a predicate is asked of is no negation: its text is that of a negated member or predicate. -/
inductive Readable : Expression → Prop
  | reference {target : String} (named : isName target = true) : Readable (.ref target)
  | this : Readable .this
  | null : Readable .null
  | string (s : String) : Readable (.literal (.string s))
  | boolean (b : Bool) : Readable (.literal (.boolean b))
  | array {items : List Expression} (each : ∀ item ∈ items, Readable item) :
      Readable (.array items)
  | call {function : String} {args : List Expression} (named : isName function = true)
      (each : ∀ arg ∈ args, Readable arg) : Readable (.call function args)
  | member {operand : Expression} {name : String} (inner : Readable operand)
      (noUnary : operand.isUnary = false) (named : isName name = true) :
      Readable (.member operand name)
  | negation {operand : Expression} (inner : Readable operand) : Readable (.unary "!" operand)
  | operator {left right : Expression} {op : String} (known : op ∈ operators)
      (first : Readable left) (second : Readable right) : Readable (.binary left op right)
  | predicate {left right : Expression} {op : String} (known : op ∈ predicates)
      (first : Readable left) (noUnary : left.isUnary = false) (second : Readable right) :
      Readable (.binary left op right)

theorem isPredicate_of_mem_operators {op : String} (h : op ∈ operators) :
    isPredicate op = false := by
  revert op
  decide

theorem precedence_of_mem_operators {op : String} (h : op ∈ operators) : precedence op < 6 := by
  revert op
  decide

theorem precedence_of_mem_predicates {op : String} (h : op ∈ predicates) : precedence op = 6 := by
  revert op
  decide

theorem isPredicate_of_mem_predicates {op : String} (h : op ∈ predicates) :
    isPredicate op = true := by
  revert op
  decide

/-! ## §6. Tokens of an expression -/

/-- The tokens of an operand, in parentheses where it binds too loosely. -/
def groupedTokens (least : Nat) (e : Expression) (tokens : List Token) : List Token :=
  if e.needsParens least then .opening .round :: (tokens ++ [.closing .round]) else tokens

mutual

/-- The tokens that the text of an expression is made of. -/
def tokens : Expression → List Token
  | .literal (.string s) => [.string s]
  | .literal value => [.word value.plain]
  | .array items =>
    .opening .square :: ([Token.comma].intercalate (itemTokens items) ++ [.closing .square])
  | .reference target _ => [.word target]
  | .invocation function args =>
    .word function :: .opening .round ::
      ([Token.comma].intercalate (argTokens args) ++ [.closing .round])
  | .member operand name => groupedTokens tightest operand operand.tokens ++ [.dot, .word name]
  | .unary op operand => .sign op :: groupedTokens tightest operand operand.tokens
  | .binary left op right =>
    let strength := precedence op
    let leftTokens := groupedTokens strength left left.tokens
    if isPredicate op then
      leftTokens ++ .sign op :: .opening .square :: (right.tokens ++ [.closing .square])
    else leftTokens ++ .operator op :: groupedTokens (strength + 1) right right.tokens
  | .this => [.word "this"]
  | .null => [.word "null"]

/-- The tokens of each item of an array. -/
def itemTokens : List Expression → List (List Token)
  | [] => []
  | item :: rest => item.tokens :: itemTokens rest

/-- The tokens of each unnamed argument. -/
def argTokens : List (Argument Expression) → List (List Token)
  | [] => []
  | ⟨_, value⟩ :: rest => value.tokens :: argTokens rest

end

theorem itemTokens_eq_map (items : List Expression) : itemTokens items = items.map tokens := by
  induction items with
  | nil => rw [itemTokens, List.map_nil]
  | cons item rest ih => rw [itemTokens, ih, List.map_cons]

theorem itemTexts_eq_map (style : QuoteStyle) (items : List Expression) :
    itemTexts style items = items.map (text style) := by
  induction items with
  | nil => rw [itemTexts, List.map_nil]
  | cons item rest ih => rw [itemTexts, ih, List.map_cons]

theorem argTokens_eq_map (args : List (Argument Expression)) :
    argTokens args = args.map (·.value.tokens) := by
  induction args with
  | nil => rw [argTokens, List.map_nil]
  | cons arg rest ih => rw [argTokens, ih, List.map_cons]

theorem tokens_call (function : String) (args : List Expression) :
    (call function args).tokens = .word function :: .opening .round ::
      ([Token.comma].intercalate (args.map tokens) ++ [.closing .round]) := by
  unfold call
  rw [tokens, argTokens_eq_map, List.map_map]
  rfl

theorem text_call (style : QuoteStyle) (function : String) (args : List Expression) :
    (call function args).text style =
      function ++ "(" ++ ", ".intercalate (args.map (text style)) ++ ")" := by
  unfold call
  rw [text, argTexts_eq_map, List.map_map]
  rfl

open Token (join)

theorem join_groupedTokens {style : QuoteStyle} {e : Expression} (least : Nat)
    (same : (e.text style).toList = join style e.tokens) :
    (grouped least e (e.text style)).toList = join style (groupedTokens least e e.tokens) := by
  unfold grouped groupedTokens
  split
  next => simp [same, join, Token.chars]
  next => exact same

theorem toList_intercalate {style : QuoteStyle} {items : List Expression}
    (same : ∀ item ∈ items, (item.text style).toList = join style item.tokens) :
    (", ".intercalate (items.map (text style))).toList =
      join style ([Token.comma].intercalate (items.map tokens)) := by
  rw [String.toList_intercalate, Token.join_intercalate, List.map_map, List.map_map]
  exact congrArg (List.intercalate _) (List.map_congr_left same)

/-- **The text of an expression is the text of its tokens.** -/
theorem toList_text (style : QuoteStyle) {e : Expression} (h : e.Readable) :
    (e.text style).toList = join style e.tokens := by
  induction h with
  | reference named => simp [ref, text, tokens, join, Token.chars]
  | this => simp [text, tokens, join, Token.chars]
  | null => simp [text, tokens, join, Token.chars]
  | string s => simp [text, tokens, join, Token.chars, Literal.text, Text.Quoted.write]
  | boolean b => simp [text, tokens, join, Token.chars, Literal.text]
  | array each ih =>
    rw [text, tokens, itemTexts_eq_map, itemTokens_eq_map]
    simp [join, Token.chars, toList_intercalate ih]
  | call named each ih =>
    rw [text_call, tokens_call]
    simp [join, Token.chars, toList_intercalate ih]
  | member inner noUnary named ih =>
    rw [text, tokens]
    simp [join, Token.chars, join_groupedTokens tightest ih]
  | negation inner ih =>
    rw [text, tokens]
    simp [join, Token.chars, join_groupedTokens tightest ih]
  | operator known first second ih ih' =>
    rw [text, tokens, isPredicate_of_mem_operators known]
    simp [join, Token.chars, join_groupedTokens _ ih, join_groupedTokens _ ih']
  | predicate known first noUnary second ih ih' =>
    rw [text, tokens, isPredicate_of_mem_predicates known]
    simp [join, Token.chars, join_groupedTokens _ ih, ih']

open Token (Spaced Breaks)

theorem wellFormed_of_isName {name : String} (named : isName name = true) :
    (Token.word name).wellFormed = true := by
  simp only [isName, Bool.and_eq_true] at named
  obtain ⟨⟨begun, all⟩, _⟩ := named
  have nonempty : name.toList.isEmpty = false := by
    cases chars : name.toList with
    | nil =>
      rw [chars] at begun
      cases begun
    | cons c cs => rfl
  rw [Token.wellFormed, nonempty, all]
  rfl

theorem wellFormed_of_mem_operators {op : String} (h : op ∈ operators) :
    (Token.operator op).wellFormed = true := by
  revert op
  decide

theorem wellFormed_of_mem_predicates {op : String} (h : op ∈ predicates) :
    (Token.sign op).wellFormed = true := by
  revert op
  decide

/-- The tokens of an expression can be followed by any that may stand behind a word. -/
def Spaces (e : Expression) : Prop :=
  ∀ rest, Breaks rest → Spaced (e.tokens ++ rest)

theorem Spaces.grouped {e : Expression} (h : e.Spaces) (least : Nat) {rest : List Token}
    (breaks : Breaks rest) : Spaced (groupedTokens least e e.tokens ++ rest) := by
  unfold groupedTokens
  split
  next =>
    have closed : Breaks (.closing .round :: rest) := breaks.1.breaks_cons rfl rfl
    have opened := (h _ closed).breaks_cons (t := .opening .round) rfl rfl
    simpa using opened.1
  next => exact h rest breaks

theorem spaced_intercalate {items : List Expression} (each : ∀ item ∈ items, item.Spaces)
    {rest : List Token} (breaks : Breaks rest) :
    Spaced ([Token.comma].intercalate (items.map tokens) ++ rest) := by
  induction items with
  | nil => simpa using breaks.1
  | cons item items ih =>
    have later := ih fun item' hitem => each item' (List.mem_cons_of_mem _ hitem)
    cases items with
    | nil => simpa using each item List.mem_cons_self rest breaks
    | cons item' items =>
      rw [List.map_cons, List.map_cons, List.intercalate_cons_cons, ← List.map_cons]
      simpa using each item List.mem_cons_self _ (later.breaks_cons (t := .comma) rfl rfl)

theorem spaces_of_readable {e : Expression} (h : e.Readable) : e.Spaces := by
  -- in each case the row is put together from its last token to its first
  induction h with
  | reference named =>
    intro rest breaks
    exact breaks.spaced_word (wellFormed_of_isName named)
  | this =>
    intro rest breaks
    exact breaks.spaced_word (by decide)
  | null =>
    intro rest breaks
    exact breaks.spaced_word (by decide)
  | string s =>
    intro rest breaks
    exact (breaks.1.breaks_cons (t := .string s) rfl rfl).1
  | boolean b =>
    intro rest breaks
    cases b <;> exact breaks.spaced_word (by decide)
  | array each ih =>
    intro rest breaks
    rw [tokens, itemTokens_eq_map]
    have items := spaced_intercalate ih (breaks.1.breaks_cons (t := .closing .square) rfl rfl)
    simpa using (items.breaks_cons (t := .opening .square) rfl rfl).1
  | call named each ih =>
    intro rest breaks
    rw [tokens_call]
    have args := spaced_intercalate ih (breaks.1.breaks_cons (t := .closing .round) rfl rfl)
    simpa using (args.breaks_cons (t := .opening .round) rfl rfl).spaced_word
      (wellFormed_of_isName named)
  | member inner noUnary named ih =>
    intro rest breaks
    rw [tokens]
    have name := breaks.spaced_word (wellFormed_of_isName named)
    simpa using ih.grouped tightest (name.breaks_cons (t := .dot) rfl rfl)
  | negation inner ih =>
    intro rest breaks
    rw [tokens]
    exact ((ih.grouped tightest breaks).breaks_cons (t := .sign "!") (by decide) rfl).1
  | operator known first second ih ih' =>
    intro rest breaks
    rw [tokens, isPredicate_of_mem_operators known]
    have sound := wellFormed_of_mem_operators known
    simpa using ih.grouped _ ((ih'.grouped _ breaks).breaks_cons sound rfl)
  | predicate known first noUnary second ih ih' =>
    intro rest breaks
    rw [tokens, isPredicate_of_mem_predicates known]
    have inner := ih' _ (breaks.1.breaks_cons (t := .closing .square) rfl rfl)
    have opened := inner.breaks_cons (t := .opening .square) rfl rfl
    have sound := wellFormed_of_mem_predicates known
    simpa using ih.grouped _ (opened.1.breaks_cons sound rfl)

/-- **Readable expressions with equal texts have equal tokens.** -/
theorem tokens_eq_of_text_eq {style : QuoteStyle} {e e' : Expression} (h : e.Readable)
    (h' : e'.Readable) (same : e.text style = e'.text style) : e.tokens = e'.tokens := by
  have spaced : ∀ {e : Expression}, e.Readable → Spaced e.tokens := by
    intro e readable
    simpa using spaces_of_readable readable [] Token.breaks_nil
  apply Token.join_inj style (spaced h) (spaced h')
  rw [← toList_text style h, ← toList_text style h', same]

end Expression

end DelegateSchema
