/-
  DelegateSchema.Compile.Attribute — attribute usages in the target language.

  Attributes of the target schema are carried over, those that inject text are written as they
  are, and all other resolved ones become comments.  Argument values are literals, fields,
  function calls on literals, and arrays of these.
-/
import DelegateSchema.Compile.Basic
import DelegateSchema.Document.Printer
import DelegateSchema.Registry.Builtin

namespace DelegateSchema

/-! ## §1. Argument values -/

/-- The text of an argument of a function call: a literal or null. -/
def callArgText : Expression → Except CompileError String
  | .literal (.string s) => .ok ("\"" ++ s ++ "\"")
  | .literal value => .ok value.plain
  | .null => .ok "null"
  | e => .error (.unsupportedArgument e.kind)

/-- The texts of the arguments of a function call, whose names are dropped. -/
def callArgTexts (args : List (Argument Expression)) : Except CompileError (List String) :=
  args.mapM fun arg => callArgText arg.value

namespace Expression

mutual

/-- An expression as an argument value. -/
def toValue : Expression → Except CompileError Target.Value
  | .literal (.string s) => .ok (.string s)
  | .literal (.number n) => .ok (.number n.text)
  | .literal (.boolean b) => .ok (.boolean b)
  | .array items => do return .array (← itemsToValues items)
  | .reference target args =>
    .ok (.field target (args.map fun arg => ⟨arg.name, arg.value.text .double⟩))
  | .invocation function args => do return .call function (← callArgTexts args)
  | .member operand name => .error (.unsupportedArgument (member operand name).kind)
  | .unary op operand => .error (.unsupportedArgument (unary op operand).kind)
  | .binary left op right => .error (.unsupportedArgument (binary left op right).kind)
  | .this => .error (.unsupportedArgument this.kind)
  | .null => .error (.unsupportedArgument null.kind)

/-- The items of an array as argument values. -/
def itemsToValues : List Expression → Except CompileError (List Target.Value)
  | [] => .ok []
  | item :: rest => do
    let value ← item.toValue
    let values ← itemsToValues rest
    return value :: values

end

end Expression

/-! ## §2. Attributes -/

namespace Attribute

/-- Whether the attribute of that canonical name injects text. -/
def isPassthrough (name : String) : Bool :=
  name == Registry.modelPassthrough || name == Registry.fieldPassthrough

/-- Whether a usage belongs in the target schema. -/
def isTarget (a : Attribute) : Bool :=
  a.resolved.any fun identity => identity.target || isPassthrough identity.name

/-- A default whose value depends on the current user; it is applied above the database. -/
def isAuthDefault (a : Attribute) : Bool :=
  a.isNamed "@default" && (a.arg? "value").any (·.invokes "auth")

/-- A usage as an attribute of the target schema, under its canonical name. -/
def toTarget (a : Attribute) : Except CompileError Target.Attribute := do
  let name := a.canonicalName.getD a.name
  if isPassthrough name then
    match a.args.head?.bind (·.value.asString?) with
    | some text => if text.isEmpty then .error (.invalidPassthrough name) else .ok (.verbatim text)
    | none => .error (.invalidPassthrough name)
  else
    let args ← a.args.mapM fun arg => do return ⟨arg.name, ← arg.value.toValue⟩
    return .of name args

end Attribute

/-- The target attributes among usages, in order. -/
def targetAttributes (attributes : List Attribute) : Except CompileError (List Target.Attribute) :=
  (attributes.filter Attribute.isTarget).mapM Attribute.toTarget

/-- The comment that stands for a usage outside the target schema. -/
def Attribute.doc (a : Attribute) : String :=
  "/// " ++ a.text .single

/-- The comments for the resolved usages outside the target schema, in order. -/
def attributeDocs (attributes : List Attribute) : List String :=
  (attributes.filter fun a => a.resolved.isSome && !a.isTarget).map Attribute.doc

end DelegateSchema
