/-
  DelegateSchema.Document.Printer — expressions and attribute usages as source text.

  The text is what a reader of the source language would write: parentheses stand only where an
  operand binds looser than its place asks for, and operators of equal strength group to the
  left.  The collection predicates `?`, `!` and `^` take their right side in brackets and never
  need parentheses.  In a string literal a backslash stands before every quote and every
  backslash of the content.
-/
import DelegateSchema.Document.Attribute

namespace DelegateSchema

/-! ## §1. Quotes -/

namespace Text.Quoted

/-- Puts a backslash before every backslash and every `quote`. -/
def escape (quote : Char) : List Char → List Char
  | [] => []
  | c :: rest =>
    if c = '\\' ∨ c = quote then '\\' :: c :: escape quote rest else c :: escape quote rest

/-- The quoted form of a text. -/
def write (quote : Char) (s : String) : String :=
  String.ofList (quote :: escape quote s.toList ++ [quote])

end Text.Quoted

/-- The quote around string literals. -/
inductive QuoteStyle where
  | single
  | double
  deriving DecidableEq

/-- The quote character. -/
def QuoteStyle.char : QuoteStyle → Char
  | .single => '\''
  | .double => '"'

/-- A literal as source text. -/
def Literal.text (style : QuoteStyle) : Literal → String
  | .string s => Text.Quoted.write style.char s
  | value => value.plain

/-- A text under a name, if there is one: `name: text`. -/
def labelled (name : Option String) (text : String) : String :=
  match name with
  | some name => name ++ ": " ++ text
  | none => text

namespace Expression

/-! ## §2. Operators -/

/-- The operators that test the members of a collection. -/
def isPredicate (op : String) : Bool :=
  op == "?" || op == "!" || op == "^"

/-- How strongly an operator binds; unknown ones bind strongest. -/
def precedence (op : String) : Nat :=
  match op with
  | "||" => 1
  | "&&" => 2
  | "==" | "!=" => 3
  | "<" | "<=" | ">" | ">=" => 4
  | "in" => 5
  | _ => 6

/-- A strength above that of every operator. -/
def tightest : Nat := 255

/-- Whether an operand needs parentheses where at least the strength `least` is asked for. -/
def needsParens (least : Nat) : Expression → Bool
  | .binary _ op _ => !isPredicate op && precedence op < least
  | _ => false

/-- Puts the text of an operand in parentheses where it binds too loosely. -/
def grouped (least : Nat) (e : Expression) (text : String) : String :=
  if e.needsParens least then "(" ++ text ++ ")" else text

/-! ## §3. Text -/

mutual

/-- The source text of an expression. -/
def text (style : QuoteStyle) : Expression → String
  | .literal value => value.text style
  | .array items => "[" ++ ", ".intercalate (itemTexts style items) ++ "]"
  | .reference target [] => target
  | .reference target args => target ++ "(" ++ ", ".intercalate (argTexts style args) ++ ")"
  | .invocation function args =>
    function ++ "(" ++ ", ".intercalate (argTexts style args) ++ ")"
  | .member operand name => grouped tightest operand (operand.text style) ++ "." ++ name
  | .unary op operand => op ++ grouped tightest operand (operand.text style)
  | .binary left op right =>
    let strength := precedence op
    let leftText := grouped strength left (left.text style)
    if isPredicate op then leftText ++ op ++ "[" ++ right.text style ++ "]"
    else leftText ++ " " ++ op ++ " " ++ grouped (strength + 1) right (right.text style)
  | .this => "this"
  | .null => "null"

/-- The texts of the items of an array. -/
def itemTexts (style : QuoteStyle) : List Expression → List String
  | [] => []
  | item :: rest => item.text style :: itemTexts style rest

/-- The texts of arguments, each with its name if it has one. -/
def argTexts (style : QuoteStyle) : List (Argument Expression) → List String
  | [] => []
  | ⟨name, value⟩ :: rest => labelled name (value.text style) :: argTexts style rest

end

end Expression

/-! ## §4. Attribute usages -/

/-- An attribute usage as source text; without arguments there are no parentheses. -/
def Attribute.text (style : QuoteStyle) (a : Attribute) : String :=
  if a.args.isEmpty then a.name
  else
    let args := a.args.map fun arg => labelled arg.name (arg.value.text style)
    a.name ++ "(" ++ ", ".intercalate args ++ ")"

end DelegateSchema
