/-
  DelegateSchema.Document.Decoding — documents from data trees.

  Unknown keys are passed over, a known key given twice is refused, and so is an older spelling
  of a key next to the key itself.  Every record may also be an array of its slots in declared
  order, except where a bare string is allowed in its place (field types and enum values).
-/
import DelegateSchema.Document.Declaration
import DelegateSchema.Document.Record

namespace DelegateSchema

open Json (fill need skip)

/-! ## §1. Literals -/

/-- A literal. -/
def Literal.ofJson : Json → Decoded Literal
  | .object [("string", v)] => do return .string (← v.toText)
  | .object [("number", .number n)] => .ok (.number n)
  | .object [("boolean", v)] => do return .boolean (← v.toBool)
  | v => v.refuse "a literal"

/-! ## §2. Expressions -/

namespace Expression

/-- The slots of a record that has a name and a list of things, such as a call. -/
structure CallDraft (α : Type) where
  head : Option String := none
  args : Option (List α) := none

/-- Puts a value into a call, whose name is held in the slot `slot`. -/
def CallDraft.put {α : Type} (slot : String) (d : CallDraft α) (key : String) (v : Json)
    (args : Decoded (List α)) : Decoded (CallDraft α) :=
  if key = slot then do return { d with head := ← fill key d.head v.toText }
  else if key = "args" then do return { d with args := ← fill key d.args args }
  else skip v d

/-- The slots of an argument. -/
structure ArgumentDraft where
  name : Option (Option String) := none
  value : Option Expression := none

/-- The slots of a member access, a unary or a binary expression. -/
structure OperandDraft where
  word : Option String := none
  first : Option Expression := none
  second : Option Expression := none

mutual

/-- An expression. -/
def ofJson (v : Json) : Decoded Expression :=
  match v with
  | .string "this" => .ok .this
  | .string "null" => .ok .null
  | .object [(tag, body)] =>
    if tag = "array" then do
      return .array (← body.toList fun x _ => ofJson x)
    else if tag = "reference" then do
      let d ← body.toRecord ["target", "args"] {}
        fun (d : CallDraft (Argument Expression)) key x _ =>
          d.put "target" key x (x.toList fun y _ => argumentOfJson y)
      return .reference (← need "target" d.head) (d.args.getD [])
    else if tag = "invocation" then do
      let d ← body.toRecord ["function", "args"] {}
        fun (d : CallDraft (Argument Expression)) key x _ =>
          d.put "function" key x (x.toList fun y _ => argumentOfJson y)
      return .invocation (← need "function" d.head) (d.args.getD [])
    else if tag = "member" then do
      let d ← body.toRecord ["operand", "member"] {} fun (d : OperandDraft) key x _ =>
        if key = "operand" then do return { d with first := ← fill key d.first (ofJson x) }
        else if key = "member" then do return { d with word := ← fill key d.word x.toText }
        else skip x d
      return .member (← need "operand" d.first) (← need "member" d.word)
    else if tag = "unary" then do
      let d ← body.toRecord ["op", "operand"] {} fun (d : OperandDraft) key x _ =>
        if key = "op" then do return { d with word := ← fill key d.word x.toText }
        else if key = "operand" then do return { d with first := ← fill key d.first (ofJson x) }
        else skip x d
      return .unary (← need "op" d.word) (← need "operand" d.first)
    else if tag = "binary" then do
      let d ← body.toRecord ["left", "op", "right"] {} fun (d : OperandDraft) key x _ =>
        if key = "left" then do return { d with first := ← fill key d.first (ofJson x) }
        else if key = "op" then do return { d with word := ← fill key d.word x.toText }
        else if key = "right" then do return { d with second := ← fill key d.second (ofJson x) }
        else skip x d
      return .binary (← need "left" d.first) (← need "op" d.word) (← need "right" d.second)
    else
      match tag, body with
      | "this", .null => .ok .this
      | "null", .null => .ok .null
      | tag, body => do return .literal (← Literal.ofJson (.object [(tag, body)]))
  | v => v.refuse "an expression"
termination_by sizeOf v
decreasing_by all_goals (simp_wf; omega)

/-- An argument of a reference or a call. -/
def argumentOfJson (v : Json) : Decoded (Argument Expression) := do
  let d ← v.toRecord ["name", "value"] {} fun (d : ArgumentDraft) key x _ =>
    if key = "name" then do return { d with name := ← fill key d.name x.toText? }
    else if key = "value" then do return { d with value := ← fill key d.value (ofJson x) }
    else skip x d
  return ⟨d.name.getD none, ← need "value" d.value⟩
termination_by sizeOf v
decreasing_by all_goals omega

end

end Expression

/-! ## §3. Attributes and types -/

/-- The slots of an attribute declaration. -/
structure AttributeDecl.Draft where
  name : Option String := none
  target : Option Bool := none
  params : Option (List String) := none
  aliasOf : Option (Option String) := none

/-- The declaration that a draft describes. -/
def AttributeDecl.Draft.finish (d : AttributeDecl.Draft) : Decoded AttributeDecl := do
  return {
    name := ← need "name" d.name
    target := d.target.getD false
    params := d.params.getD []
    aliasOf := d.aliasOf.getD none }

/-- An attribute declaration. -/
def AttributeDecl.ofJson (v : Json) : Decoded AttributeDecl := do
  let d ← v.toRecord ["name", "prisma", "params", "alias_of"] {}
    fun (d : AttributeDecl.Draft) key x _ =>
      if key = "name" then do return { d with name := ← fill key d.name x.toText }
      else if key = "prisma" then do return { d with target := ← fill key d.target x.toBool }
      else if key = "params" then do return { d with params := ← fill key d.params x.toTexts }
      else if key = "alias_of" then do return { d with aliasOf := ← fill key d.aliasOf x.toText? }
      else skip x d
  d.finish

/-- An attribute usage; its slots for resolution stay empty. -/
def Attribute.ofJson (v : Json) : Decoded Attribute := do
  let d ← v.toRecord ["name", "args"] {}
    fun (d : Expression.CallDraft (Argument Expression)) key x _ =>
      d.put "name" key x (x.toList fun y _ => Expression.argumentOfJson y)
  return {
    name := ← need "name" d.head
    args := (d.args.getD []).map fun arg => { name := arg.name, value := arg.value } }

/-- A list of attribute usages. -/
def attributesOfJson (v : Json) : Decoded (List Attribute) :=
  v.toList fun x _ => Attribute.ofJson x

/-- The slots of a field type. -/
structure FieldType.Draft where
  scalar : Option (Option String) := none
  reference : Option (Option String) := none
  unsupported : Option (Option String) := none
  array : Option Bool := none
  optional : Option Bool := none

/-- A field type: its shorthand, or an object. -/
def FieldType.ofJson (v : Json) : Decoded FieldType :=
  match v with
  | .string text =>
    match FieldType.parse text with
    | .ok type => .ok type
    | .error cause => .error (.fieldType cause)
  | v => do
    let d ← v.toObject {} fun (d : FieldType.Draft) key x _ =>
      if key = "scalar" then do return { d with scalar := ← fill key d.scalar x.toText? }
      else if key = "reference" then do
        return { d with reference := ← fill key d.reference x.toText? }
      else if key = "unsupported" then do
        return { d with unsupported := ← fill key d.unsupported x.toText? }
      else if key = "array" then do return { d with array := ← fill key d.array x.toBool }
      else if key = "optional" then do return { d with optional := ← fill key d.optional x.toBool }
      else skip x d
    return {
      scalar := d.scalar.getD none
      reference := d.reference.getD none
      unsupported := d.unsupported.getD none
      array := d.array.getD false
      optional := d.optional.getD false }

/-! ## §4. Configuration blocks -/

/-- The slots of a named value. -/
structure NamedDraft (α : Type) where
  name : Option String := none
  value : Option α := none

/-- A record of a name and a value. -/
def namedOfJson {α : Type} (read : Json → Decoded α) (v : Json) : Decoded (String × α) := do
  let d ← v.toRecord ["name", "value"] {} fun (d : NamedDraft α) key x _ =>
    if key = "name" then do return { d with name := ← fill key d.name x.toText }
    else if key = "value" then do return { d with value := ← fill key d.value (read x) }
    else skip x d
  return (← need "name" d.name, ← need "value" d.value)

/-- An item of a configuration array. -/
def ConfigItem.ofJson : Json → Decoded ConfigItem
  | .object [("invocation", body)] => do
    let d ← body.toRecord ["name", "args"] {}
      fun (d : Expression.CallDraft (String × Literal)) key x _ =>
        d.put "name" key x (x.toList fun y _ => namedOfJson Literal.ofJson y)
    return .invocation (← need "name" d.head) (d.args.getD [])
  | v => do return .literal (← Literal.ofJson v)

/-- The value of a configuration entry. -/
def ConfigValue.ofJson : Json → Decoded ConfigValue
  | .object [("invocation", body)] => do
    let d ← body.toRecord ["function", "args"] {}
      fun (d : Expression.CallDraft (Argument Expression)) key x _ =>
        d.put "function" key x (x.toList fun y _ => Expression.argumentOfJson y)
    return .invocation (← need "function" d.head) (d.args.getD [])
  | .object [("array", body)] => do
    return .array (← body.toList fun x _ => ConfigItem.ofJson x)
  | v => do return .literal (← Literal.ofJson v)

/-- A configuration entry. -/
def ConfigEntry.ofJson (v : Json) : Decoded ConfigEntry := do
  let (name, value) ← namedOfJson ConfigValue.ofJson v
  return ⟨name, value⟩

/-- The slots of a data source or a generator. -/
structure ConfigBlock.Draft where
  name : Option String := none
  entries : Option (List ConfigEntry) := none

/-- A data source or a generator. -/
def ConfigBlock.ofJson (v : Json) : Decoded ConfigBlock := do
  let d ← v.toRecord ["name", "fields"] {} fun (d : ConfigBlock.Draft) key x _ =>
    if key = "name" then do return { d with name := ← fill key d.name x.toText }
    else if key = "fields" then do
      return { d with entries := ← fill key d.entries (x.toList fun y _ => ConfigEntry.ofJson y) }
    else skip x d
  return { name := ← need "name" d.name, entries := d.entries.getD [] }

/-! ## §5. Enums and models -/

/-- The slots of an enum value. -/
structure EnumField.Draft where
  name : Option String := none
  attributes : Option (List Attribute) := none
  comments : Option (List String) := none

/-- A value of an enum: its bare name, or an object. -/
def EnumField.ofJson (v : Json) : Decoded EnumField :=
  match v with
  | .string name => .ok { name }
  | v => do
    let d ← v.toObject {} fun (d : EnumField.Draft) key x _ =>
      if key = "name" then do return { d with name := ← fill key d.name x.toText }
      else if key = "attributes" then do
        return { d with attributes := ← fill key d.attributes (attributesOfJson x) }
      else if key = "comments" then do return { d with comments := ← fill key d.comments x.toTexts }
      else skip x d
    return {
      name := ← need "name" d.name
      attributes := d.attributes.getD []
      comments := d.comments.getD [] }

/-- The slots of an enum. -/
structure EnumDecl.Draft where
  name : Option String := none
  fields : Option (List EnumField) := none
  attributes : Option (List Attribute) := none
  comments : Option (List String) := none

/-- An enum. -/
def EnumDecl.ofJson (v : Json) : Decoded EnumDecl := do
  let d ← v.toRecord ["name", "fields", "attributes", "comments"] {}
    fun (d : EnumDecl.Draft) key x _ =>
      if key = "name" then do return { d with name := ← fill key d.name x.toText }
      else if key = "fields" then do
        return { d with fields := ← fill key d.fields (x.toList fun y _ => EnumField.ofJson y) }
      else if key = "attributes" then do
        return { d with attributes := ← fill key d.attributes (attributesOfJson x) }
      else if key = "comments" then do return { d with comments := ← fill key d.comments x.toTexts }
      else skip x d
  return {
    name := ← need "name" d.name
    fields := d.fields.getD []
    attributes := d.attributes.getD []
    comments := d.comments.getD [] }

/-- The slots of a field. -/
structure Field.Draft where
  name : Option String := none
  type : Option FieldType := none
  attributes : Option (List Attribute) := none
  comments : Option (List String) := none
  inheritedFrom : Option (Option String) := none

/-- A field of a model. -/
def Field.ofJson (v : Json) : Decoded Field := do
  let d ← v.toRecord ["name", "type", "attributes", "comments", "inherited_from"] {}
    fun (d : Field.Draft) key x _ =>
      if key = "name" then do return { d with name := ← fill key d.name x.toText }
      else if key = "type" then do return { d with type := ← fill key d.type (FieldType.ofJson x) }
      else if key = "attributes" then do
        return { d with attributes := ← fill key d.attributes (attributesOfJson x) }
      else if key = "comments" then do return { d with comments := ← fill key d.comments x.toTexts }
      else if key = "inherited_from" then do
        return { d with inheritedFrom := ← fill key d.inheritedFrom x.toText? }
      else skip x d
  return {
    name := ← need "name" d.name
    type := ← need "type" d.type
    attributes := d.attributes.getD []
    comments := d.comments.getD []
    inheritedFrom := d.inheritedFrom.getD none }

/-- The slots of a model. -/
structure Model.Draft where
  name : Option String := none
  fields : Option (List Field) := none
  attributes : Option (List Attribute) := none
  comments : Option (List String) := none
  isView : Option Bool := none
  isDelegate : Option Bool := none
  isAbstract : Option Bool := none
  superTypes : Option (List String) := none

/-- Puts a value into a model; three slots have a second spelling. -/
def Model.Draft.put (d : Model.Draft) (key : String) (x : Json) : Decoded Model.Draft :=
  if key = "name" then do return { d with name := ← fill key d.name x.toText }
  else if key = "fields" then do
    return { d with fields := ← fill key d.fields (x.toList fun y _ => Field.ofJson y) }
  else if key = "attributes" then do
    return { d with attributes := ← fill key d.attributes (attributesOfJson x) }
  else if key = "comments" then do return { d with comments := ← fill key d.comments x.toTexts }
  else if key = "is_view" ∨ key = "view" then do
    return { d with isView := ← fill key d.isView x.toBool }
  else if key = "is_delegate" ∨ key = "delegate" then do
    return { d with isDelegate := ← fill key d.isDelegate x.toBool }
  else if key = "abstract" then do
    return { d with isAbstract := ← fill key d.isAbstract x.toBool }
  else if key = "super_types" ∨ key = "extends" then do
    return { d with superTypes := ← fill key d.superTypes x.toTexts }
  else skip x d

/-- A model. -/
def Model.ofJson (v : Json) : Decoded Model := do
  let d ← v.toRecord
    ["name", "fields", "attributes", "comments", "is_view", "is_delegate", "abstract",
     "super_types"] {}
    fun (d : Model.Draft) key x _ => d.put key x
  return {
    name := ← need "name" d.name
    fields := d.fields.getD []
    attributes := d.attributes.getD []
    comments := d.comments.getD []
    isView := d.isView.getD false
    isDelegate := d.isDelegate.getD false
    isAbstract := d.isAbstract.getD false
    superTypes := d.superTypes.getD [] }

/-! ## §6. Declarations and documents -/

/-- The body of a declaration of the given kind. -/
def Declaration.ofBody (kind : String) (body : Json) : Decoded Declaration :=
  if kind = "datasource" then do return .datasource (← ConfigBlock.ofJson body)
  else if kind = "generator" then do return .generator (← ConfigBlock.ofJson body)
  else if kind = "enum" then do return .enum (← EnumDecl.ofJson body)
  else if kind = "model" then do return .model (← Model.ofJson body)
  else .error (.mismatch "a declaration kind")

/-- A declaration.  Its kind stands in an entry of its own, at any place, or is the first item of
    an array; the whole declaration is read before its body is looked at. -/
def Declaration.ofJson (v : Json) : Decoded Declaration :=
  if !v.isReadable then .error .broken
  else
    match v with
    | .object entries =>
      match entries.filter (·.1 == "kind") with
      | [] => .error (.missing "kind")
      | [(_, kind)] => do
        Declaration.ofBody (← kind.toText) (.object (entries.filter (·.1 != "kind")))
      | _ => .error (.repeated "kind")
    | .array (kind :: items) => do Declaration.ofBody (← kind.toText) (.array items)
    | .array [] => .error (.missing "kind")
    | v => v.refuse "a declaration"

/-- The slots of a document. -/
structure Document.Draft where
  attributes : Option (List AttributeDecl) := none
  flattened : Option Bool := none
  declarations : Option (List Declaration) := none

/-- The document that a draft describes. -/
def Document.Draft.finish (d : Document.Draft) : Document where
  attributes := d.attributes.getD []
  flattened := d.flattened.getD false
  declarations := d.declarations.getD []

/-- A document. -/
def Document.ofJson (v : Json) : Decoded Document := do
  let d ← v.toRecord ["attributes", "flattened", "declarations"] {}
    fun (d : Document.Draft) key x _ =>
      if key = "attributes" then do
        return { d with
          attributes := ← fill key d.attributes (x.toList fun y _ => AttributeDecl.ofJson y) }
      else if key = "flattened" then do
        return { d with flattened := ← fill key d.flattened x.toBool }
      else if key = "declarations" then do
        return { d with
          declarations := ← fill key d.declarations (x.toList fun y _ => Declaration.ofJson y) }
      else skip x d
  return d.finish

end DelegateSchema
