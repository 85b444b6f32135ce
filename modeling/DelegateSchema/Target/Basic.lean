/-
  DelegateSchema.Target.Basic — schemas of the target language.

  A target schema is a list of blocks in the order in which they were added: data sources,
  generators, models or views, and enums.  Every edit is a function from block to block.
-/
import DelegateSchema.Document.Expression

namespace DelegateSchema.Target

/-! ## §1. Attributes -/

/-- The value of an attribute argument. -/
inductive Value where
  | string (text : String)
  /-- A number, by its text. -/
  | number (text : String)
  | boolean (value : Bool)
  /-- A field, whose arguments are text already. -/
  | field (name : String) (args : List (Argument String))
  /-- A function call, whose arguments are text already. -/
  | call (function : String) (args : List String)
  | array (items : List Value)

namespace Value

mutual

/-- Equality of values is decidable. -/
def decEq : (a b : Value) → Decidable (a = b)
  | .string a, .string b => decidable_of_iff (a = b) (by simp)
  | .number a, .number b => decidable_of_iff (a = b) (by simp)
  | .boolean a, .boolean b => decidable_of_iff (a = b) (by simp)
  | .field f xs, .field g ys => decidable_of_iff (f = g ∧ xs = ys) (by simp)
  | .call f xs, .call g ys => decidable_of_iff (f = g ∧ xs = ys) (by simp)
  | .array xs, .array ys =>
    match decEqItems xs ys with
    | isTrue h => isTrue (by rw [h])
    | isFalse h => isFalse (by simpa using h)
  | .string _, .number _ | .string _, .boolean _ | .string _, .field _ _ | .string _, .call _ _
  | .string _, .array _ | .number _, .string _ | .number _, .boolean _ | .number _, .field _ _
  | .number _, .call _ _ | .number _, .array _ | .boolean _, .string _ | .boolean _, .number _
  | .boolean _, .field _ _ | .boolean _, .call _ _ | .boolean _, .array _ | .field _ _, .string _
  | .field _ _, .number _ | .field _ _, .boolean _ | .field _ _, .call _ _ | .field _ _, .array _
  | .call _ _, .string _ | .call _ _, .number _ | .call _ _, .boolean _ | .call _ _, .field _ _
  | .call _ _, .array _ | .array _, .string _ | .array _, .number _ | .array _, .boolean _
  | .array _, .field _ _ | .array _, .call _ _ => isFalse (by simp)

/-- Equality of lists of values is decidable. -/
def decEqItems : (xs ys : List Value) → Decidable (xs = ys)
  | [], [] => isTrue rfl
  | [], _ :: _ | _ :: _, [] => isFalse (by simp)
  | a :: xs, b :: ys =>
    match decEq a b, decEqItems xs ys with
    | isTrue h, isTrue hs => isTrue (by rw [h, hs])
    | isFalse h, _ => isFalse (by simp [h])
    | _, isFalse h => isFalse (by simp [h])

end

instance : DecidableEq Value := decEq

/-- A field without arguments. -/
def fieldRef (name : String) : Value := .field name []

/-- An array of fields without arguments. -/
def fieldRefs (names : List String) : Value := .array (names.map fieldRef)

end Value

/-- An argument of an attribute. -/
abbrev Arg := Argument Value

/-- An argument passed by position. -/
def Arg.positional (value : Value) : Arg := ⟨none, value⟩

/-- An argument passed by name. -/
def Arg.named (name : String) (value : Value) : Arg := ⟨some name, value⟩

/-- An attribute with a name. -/
structure NamedAttribute where
  name : String
  args : List Arg
  deriving DecidableEq

/-- An attribute of a block or a field. -/
inductive Attribute where
  | named (attr : NamedAttribute)
  /-- Text that is written as it is. -/
  | verbatim (text : String)
  deriving DecidableEq

/-- An attribute from its name and arguments. -/
def Attribute.of (name : String) (args : List Arg) : Attribute :=
  .named ⟨name, args⟩

/-- Whether an attribute has the given name. -/
def Attribute.isNamed (name : String) : Attribute → Bool
  | .named a => a.name == name
  | .verbatim _ => false

/-! ## §2. Blocks -/

/-- A line `name = text` of a data source or a generator. -/
structure Setting where
  name : String
  text : String
  deriving DecidableEq

/-- A data source or a generator. -/
structure ConfigBlock where
  name : String
  settings : List Setting := []
  deriving DecidableEq

/-- The type of a model field. -/
structure FieldType where
  name : String
  array : Bool
  optional : Bool
  deriving DecidableEq

/-- A field of a model. -/
structure Field where
  name : String
  type : FieldType
  attributes : List Attribute := []
  docs : List String := []
  deriving DecidableEq

/-- A model or a view. -/
structure ModelBlock where
  name : String
  isView : Bool := false
  fields : List Field := []
  attributes : List Attribute := []
  docs : List String := []
  deriving DecidableEq

/-- A value of an enum. -/
structure EnumField where
  name : String
  attributes : List Attribute := []
  docs : List String := []
  deriving DecidableEq

/-- An enum. -/
structure EnumBlock where
  name : String
  fields : List EnumField := []
  attributes : List Attribute := []
  docs : List String := []
  deriving DecidableEq

/-- A block of a target schema. -/
inductive Block where
  | datasource (block : ConfigBlock)
  | generator (block : ConfigBlock)
  | model (block : ModelBlock)
  | enum (block : EnumBlock)
  deriving DecidableEq

/-- A target schema. -/
structure Schema where
  blocks : List Block := []
  deriving DecidableEq

/-! ## §3. Edits -/

/-- Changes the first element that satisfies `p`, if there is one. -/
def updateFirst {α : Type} (p : α → Bool) (f : α → α) : List α → List α
  | [] => []
  | x :: xs => if p x then f x :: xs else x :: updateFirst p f xs

namespace ConfigBlock

/-- The first setting of the given name. -/
def setting? (b : ConfigBlock) (name : String) : Option Setting :=
  b.settings.find? (·.name == name)

/-- Replaces the text of a setting, which is added at the end when it is missing. -/
def set (b : ConfigBlock) (name text : String) : ConfigBlock :=
  match b.setting? name with
  | some _ =>
    { b with settings := updateFirst (·.name == name) (fun s => { s with text }) b.settings }
  | none => { b with settings := b.settings ++ [⟨name, text⟩] }

end ConfigBlock

namespace NamedAttribute

/-- The first argument passed under the given name. -/
def arg? (a : NamedAttribute) (name : String) : Option Arg :=
  a.args.find? (·.name == some name)

/-- Replaces the value of the first argument passed under the given name. -/
def setArg (a : NamedAttribute) (name : String) (value : Value) : NamedAttribute :=
  { a with args := updateFirst (·.name == some name) (fun arg => { arg with value }) a.args }

/-- Adds an argument at the end. -/
def pushArg (a : NamedAttribute) (arg : Arg) : NamedAttribute :=
  { a with args := a.args ++ [arg] }

end NamedAttribute

namespace Field

/-- The first attribute of the given name. -/
def attribute? (f : Field) (name : String) : Option NamedAttribute :=
  f.attributes.findSome? fun a =>
    match a with
    | .named a => if a.name == name then some a else none
    | .verbatim _ => none

/-- Changes the first attribute of the given name, if there is one. -/
def updateAttribute (f : Field) (name : String) (edit : NamedAttribute → NamedAttribute) : Field :=
  { f with
    attributes := updateFirst (·.isNamed name)
      (fun a =>
        match a with
        | .named a => .named (edit a)
        | .verbatim text => .verbatim text)
      f.attributes }

/-- Adds an attribute at the end. -/
def addAttribute (f : Field) (a : Attribute) : Field :=
  { f with attributes := f.attributes ++ [a] }

/-- Adds a line of documentation. -/
def addDoc (f : Field) (doc : String) : Field :=
  { f with docs := f.docs ++ [doc] }

end Field

namespace ModelBlock

/-- The first field of the given name. -/
def field? (b : ModelBlock) (name : String) : Option Field :=
  b.fields.find? (·.name == name)

/-- Adds a field at the end. -/
def addField (b : ModelBlock) (f : Field) : ModelBlock :=
  { b with fields := b.fields ++ [f] }

/-- Changes the first field of the given name, if there is one. -/
def updateField (b : ModelBlock) (name : String) (edit : Field → Field) : ModelBlock :=
  { b with fields := updateFirst (·.name == name) edit b.fields }

/-- Adds an attribute at the end. -/
def addAttribute (b : ModelBlock) (a : Attribute) : ModelBlock :=
  { b with attributes := b.attributes ++ [a] }

/-- Adds a line of documentation. -/
def addDoc (b : ModelBlock) (doc : String) : ModelBlock :=
  { b with docs := b.docs ++ [doc] }

end ModelBlock

namespace EnumBlock

/-- Adds a value at the end. -/
def addField (b : EnumBlock) (f : EnumField) : EnumBlock :=
  { b with fields := b.fields ++ [f] }

/-- Adds an attribute at the end. -/
def addAttribute (b : EnumBlock) (a : Attribute) : EnumBlock :=
  { b with attributes := b.attributes ++ [a] }

/-- Adds a line of documentation. -/
def addDoc (b : EnumBlock) (doc : String) : EnumBlock :=
  { b with docs := b.docs ++ [doc] }

end EnumBlock

end DelegateSchema.Target
