/-
  DelegateSchema.Document.FieldType — types of model fields and their shorthand.

  A type names a scalar, a model or an enum, or carries the text of a type the target language
  has no name for.  The shorthand writes it as `String`, `Post[]`, `User?` or
  `Unsupported("circle")`; a question mark stands last, brackets before it.
-/
import DelegateSchema.Text.Blank

namespace DelegateSchema

/-- The scalar types of the target schema language. -/
def scalarTypes : List String :=
  ["String", "Boolean", "Int", "BigInt", "Float", "Decimal", "DateTime", "Json", "Bytes"]

/-- The type of a field.  One of the three names is expected; a document that gives none, or an
    empty unsupported text, is refused when the field is compiled. -/
structure FieldType where
  scalar : Option String := none
  /-- The name of a model or an enum. -/
  reference : Option String := none
  /-- The text of a type that only the database knows. -/
  unsupported : Option String := none
  array : Bool := false
  optional : Bool := false
  deriving DecidableEq

/-- Why a shorthand is refused. -/
inductive FieldTypeError where
  /-- Nothing is left of the text once the suffixes are taken off. -/
  | empty (text : String)
  deriving DecidableEq

/-- The wording of a refusal. -/
def FieldTypeError.message : FieldTypeError → String
  | .empty text => "empty field type in '" ++ text ++ "'"

namespace FieldType

/-- Takes a suffix off, and tells whether it was there. -/
def takeSuffix (suffix s : List Char) : Bool × List Char :=
  match Text.dropEnding? suffix s with
  | some rest => (true, rest)
  | none => (false, s)

/-- The content of `Unsupported(...)`: the text between the parentheses, without blanks and then
    without quotes at both ends. -/
def unsupported? (s : List Char) : Option (List Char) := do
  let rest ← Text.dropStart? "Unsupported(".toList s
  let inner ← Text.dropEnding? [')'] rest
  return Text.trimWhile (· == '"') (Text.trim inner)

/-- Reads the shorthand. -/
def parse (text : String) : Except FieldTypeError FieldType :=
  let (optional, s) := takeSuffix ['?'] (Text.trim text.toList)
  let (array, s) := takeSuffix ['[', ']'] s
  if s.isEmpty then .error (.empty text)
  else
    match unsupported? s with
    | some inner => .ok { unsupported := some (String.ofList inner), array, optional }
    | none =>
      let name := String.ofList s
      if scalarTypes.contains name then .ok { scalar := some name, array, optional }
      else .ok { reference := some name, array, optional }

end FieldType

end DelegateSchema
