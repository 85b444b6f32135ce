/-
  DelegateSchema.Document.Expression — the expressions of attribute arguments.

  Access policies, default values and key lists are all written in one small expression
  language.  Operators are kept as they are written; what they mean is not the compiler's
  concern, only how they are printed.
-/
import DelegateSchema.Number.Basic

namespace DelegateSchema

/-! ## §1. Literals and arguments -/

/-- A literal value. -/
inductive Literal where
  | string (value : String)
  | number (value : Number)
  | boolean (value : Bool)
  deriving DecidableEq

/-- The text of a literal without any quotes. -/
def Literal.plain : Literal → String
  | .string s => s
  | .number n => n.text
  | .boolean b => if b then "true" else "false"

/-- A value passed under a name or, without one, by position. -/
structure Argument (ε : Type) where
  name : Option String
  value : ε
  deriving DecidableEq

/-! ## §2. Expressions -/

/-- An expression of the source language. -/
inductive Expression where
  /-- `[a, b]` -/
  | array (items : List Expression)
  /-- A field or another named thing, as in `title` or `title(sort: "desc")`. -/
  | reference (target : String) (args : List (Argument Expression))
  /-- A function call, as in `now()`. -/
  | invocation (function : String) (args : List (Argument Expression))
  /-- `operand.member` -/
  | member (operand : Expression) (name : String)
  /-- An operator before its operand. -/
  | unary (op : String) (operand : Expression)
  /-- An operator between its operands. -/
  | binary (left : Expression) (op : String) (right : Expression)
  | this
  | null
  | literal (value : Literal)

namespace Expression

/-- An argument-less reference. -/
def ref (target : String) : Expression := .reference target []

/-- A call with arguments passed by position. -/
def call (function : String) (args : List Expression) : Expression :=
  .invocation function (args.map fun value => ⟨none, value⟩)

/-- The content of a string literal. -/
def asString? : Expression → Option String
  | .literal (.string s) => some s
  | _ => none

/-! ## §3. Kinds -/

/-- What sort of expression it is, as named in error messages. -/
inductive Kind where
  | array
  | reference
  | invocation
  | memberAccess
  | unary
  | binary
  | this
  | null
  | string
  | number
  | boolean
  deriving DecidableEq

/-- The name of a kind in messages. -/
def Kind.label : Kind → String
  | .array => "ArrayExpr"
  | .reference => "ReferenceExpr"
  | .invocation => "InvocationExpr"
  | .memberAccess => "MemberAccessExpr"
  | .unary => "UnaryExpr"
  | .binary => "BinaryExpr"
  | .this => "ThisExpr"
  | .null => "NullExpr"
  | .string => "StringLiteral"
  | .number => "NumberLiteral"
  | .boolean => "BooleanLiteral"

/-- The kind of an expression. -/
def kind : Expression → Kind
  | .array _ => .array
  | .reference _ _ => .reference
  | .invocation _ _ => .invocation
  | .member _ _ => .memberAccess
  | .unary _ _ => .unary
  | .binary _ _ _ => .binary
  | .this => .this
  | .null => .null
  | .literal (.string _) => .string
  | .literal (.number _) => .number
  | .literal (.boolean _) => .boolean

/-! ## §4. Calls inside an expression -/

mutual

/-- Whether the expression, or any part of it, calls `function`. -/
def invokes (function : String) : Expression → Bool
  | .invocation f args => f == function || argsInvoke function args
  | .array items => itemsInvoke function items
  | .reference _ args => argsInvoke function args
  | .member operand _ => operand.invokes function
  | .unary _ operand => operand.invokes function
  | .binary left _ right => left.invokes function || right.invokes function
  | .this | .null | .literal _ => false

/-- Whether one of the expressions calls `function`. -/
def itemsInvoke (function : String) : List Expression → Bool
  | [] => false
  | item :: rest => item.invokes function || itemsInvoke function rest

/-- Whether one of the argument values calls `function`. -/
def argsInvoke (function : String) : List (Argument Expression) → Bool
  | [] => false
  | ⟨_, value⟩ :: rest => value.invokes function || argsInvoke function rest

end

end Expression

end DelegateSchema
