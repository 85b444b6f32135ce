/-
  DelegateSchema.Proofs.RoundTrip — a document is read back from the tree it is written as.

  The tree of a document mixes three ways to tell forms apart: a declaration has its kind among its
  entries, an expression is an object of one entry whose key is its tag, and a literal stands in the
  same places with a key of its own.  A declaration is moreover refused, before its body is looked
  at, when any leaf below it has no value.  So two things are said at once of every tree that is
  written: it is read as what it was written from, and it is readable throughout (`ReadsAs`).

  Main results:
    * `Json.readsAs_array` — a list is read back when its elements are,
    * `Expression.readsAs_toJson` — expressions, however deep,
    * `Declaration.readsAs_toJson` — declarations of all four kinds,
    * `Document.ofJson_toJson` — documents.
-/
import DelegateSchema.Document.Encoding
import DelegateSchema.Proofs.Decoding

namespace DelegateSchema

/-! ## §1. Leaves and slots -/

namespace Json

variable {α β : Type}

@[simp]
theorem toText_string (s : String) : (Json.string s).toText = .ok s := rfl

@[simp]
theorem toBool_bool (b : Bool) : (Json.bool b).toBool = .ok b := rfl

@[simp]
theorem toText?_ofOption (s : Option String) : (ofOption s).toText? = .ok s := by
  cases s with
  | none => rfl
  | some s => rfl

@[simp]
theorem isReadable_ofOption (s : Option String) : (ofOption s).isReadable = true := by
  cases s with
  | none => simp [ofOption, isReadable]
  | some s => simp [ofOption, isReadable]

@[simp]
theorem fill_none (slot : String) (x : α) : fill slot none (.ok x) = .ok (some x) := rfl

@[simp]
theorem need_some (slot : String) (x : α) : need slot (some x) = .ok x := rfl

@[simp]
theorem ok_bind (x : α) (f : α → Decoded β) : ((.ok x : Decoded α) >>= f) = f x := rfl

@[simp]
theorem pure_eq_ok (x : α) : (pure x : Decoded α) = .ok x := rfl

/-! ## §2. Trees that are read as a value -/

/-- The tree is read as `x`, and every leaf of it has a value. -/
structure ReadsAs (read : Json → Decoded α) (v : Json) (x : α) : Prop where
  readable : v.isReadable = true
  decoded : read v = .ok x

theorem allReadable_iff {items : List Json} :
    allReadable items = true ↔ ∀ v ∈ items, v.isReadable = true := by
  induction items with
  | nil => simp [allReadable]
  | cons v items ih => simp [allReadable, ih]

theorem mapMem_ok {read : α → Decoded β} {xs : List α} {ys : List β}
    (h : List.Forall₂ (fun x y => read x = .ok y) xs ys) :
    mapMem xs (fun x _ => read x) = .ok ys := by
  induction h with
  | nil => rfl
  | cons first _ ih => simp [mapMem, first, ih]

theorem readsAs_array {read : Json → Decoded α} {items : List Json} {xs : List α}
    (h : List.Forall₂ (ReadsAs read) items xs) :
    ReadsAs (fun v => v.toList fun x _ => read x) (.array items) xs where
  readable := by
    rw [isReadable, allReadable_iff]
    intro v hv
    obtain ⟨x, _, reads⟩ := forall₂_exists_right h hv
    exact reads.readable
  decoded := mapMem_ok (h.imp fun _ _ reads => reads.decoded)

/-- A list is read element by element. -/
theorem readsAs_map {read : Json → Decoded α} {write : α → Json} {xs : List α}
    (each : ∀ x ∈ xs, ReadsAs read (write x) x) :
    ReadsAs (fun v => v.toList fun x _ => read x) (.array (xs.map write)) xs := by
  apply readsAs_array
  rw [List.forall₂_map_left_iff, List.forall₂_same]
  exact each

theorem readsAs_ofStrings (texts : List String) : ReadsAs toTexts (ofStrings texts) texts :=
  readsAs_map fun s _ => ⟨by simp [isReadable], toText_string s⟩

end Json

open Json

/-! ## §3. Expressions -/

theorem Literal.readsAs_toJson (l : Literal) : ReadsAs Literal.ofJson l.toJson l := by
  cases l with
  | string s => exact ⟨by simp [toJson, isReadable, allEntriesReadable], rfl⟩
  | number n => exact ⟨by simp [toJson, isReadable, allEntriesReadable], rfl⟩
  | boolean b => exact ⟨by simp [toJson, isReadable, allEntriesReadable], rfl⟩

namespace Expression

/-- The key of a literal is the tag of no other expression. -/
theorem ofJson_literal (l : Literal) : ofJson l.toJson = .ok (.literal l) := by
  cases l with
  | string s => simp [Literal.toJson, ofJson, Literal.ofJson]
  | number n => simp [Literal.toJson, ofJson, Literal.ofJson]
  | boolean b => simp [Literal.toJson, ofJson, Literal.ofJson]

/-- A record of a name and a list of arguments, under the name of its first slot. -/
theorem toRecord_call {α : Type} {readArgs : Json → Decoded (List α)} {v : Json} {args : List α}
    {slot : String} (other : slot ≠ "args") (slots : List String) (head : String)
    (read : readArgs v = .ok args) :
    (Json.object [(slot, .string head), ("args", v)]).toRecord slots {}
      (fun (d : CallDraft α) key x _ => d.put slot key x (readArgs x)) =
      .ok ⟨some head, some args⟩ := by
  simp [toRecord, foldMem, CallDraft.put, other.symm, read]

theorem readsAs_argument (name : Option String) {v : Json} {value : Expression}
    (read : ReadsAs ofJson v value) :
    ReadsAs argumentOfJson (.object [("name", ofOption name), ("value", v)]) ⟨name, value⟩ := by
  constructor
  · simp [isReadable, allEntriesReadable, read.readable]
  · simp [argumentOfJson, toRecord, foldMem, read.decoded]

-- By recursion on the expression, with its items and its arguments.  In each record every entry has
-- a key of its own, so it finds its slot empty.
mutual

/-- **Every expression is read back**, whatever stands inside it. -/
theorem readsAs_toJson : (e : Expression) → ReadsAs ofJson e.toJson e
  | .array items => by
    have read := readsAs_array (readsAs_itemsToJson items)
    constructor
    · simpa [toJson, isReadable, allEntriesReadable] using read.readable
    · simp [toJson, ofJson, read.decoded]
  | .reference target args => by
    have read := readsAs_array (readsAs_argsToJson args)
    constructor
    · simpa [toJson, isReadable, allEntriesReadable] using read.readable
    · simp [toJson, ofJson, toRecord_call, read.decoded]
  | .invocation function args => by
    have read := readsAs_array (readsAs_argsToJson args)
    constructor
    · simpa [toJson, isReadable, allEntriesReadable] using read.readable
    · simp [toJson, ofJson, toRecord_call, read.decoded]
  | .member operand name => by
    have read := readsAs_toJson operand
    constructor
    · simp [toJson, isReadable, allEntriesReadable, read.readable]
    · simp [toJson, ofJson, toRecord, foldMem, read.decoded]
  | .unary op operand => by
    have read := readsAs_toJson operand
    constructor
    · simp [toJson, isReadable, allEntriesReadable, read.readable]
    · simp [toJson, ofJson, toRecord, foldMem, read.decoded]
  | .binary left op right => by
    have readLeft := readsAs_toJson left
    have readRight := readsAs_toJson right
    constructor
    · simp [toJson, isReadable, allEntriesReadable, readLeft.readable, readRight.readable]
    · simp [toJson, ofJson, toRecord, foldMem, readLeft.decoded, readRight.decoded]
  | .this => ⟨by simp [toJson, isReadable], by simp [toJson, ofJson]⟩
  | .null => ⟨by simp [toJson, isReadable], by simp [toJson, ofJson]⟩
  | .literal l => ⟨by simp [toJson, l.readsAs_toJson.readable], by rw [toJson, ofJson_literal]⟩

theorem readsAs_itemsToJson :
    (items : List Expression) → List.Forall₂ (ReadsAs ofJson) (itemsToJson items) items
  | [] => by
    rw [itemsToJson]
    exact .nil
  | item :: rest => by
    rw [itemsToJson]
    exact .cons (readsAs_toJson item) (readsAs_itemsToJson rest)

theorem readsAs_argsToJson : (args : List (Argument Expression)) →
    List.Forall₂ (ReadsAs argumentOfJson) (argsToJson args) args
  | [] => by
    rw [argsToJson]
    exact .nil
  | ⟨name, value⟩ :: rest => by
    rw [argsToJson]
    exact .cons (readsAs_argument name (readsAs_toJson value)) (readsAs_argsToJson rest)

end

end Expression

/-! ## §4. Attributes and types -/

theorem AttributeDecl.readsAs_toJson (d : AttributeDecl) :
    ReadsAs AttributeDecl.ofJson d.toJson d := by
  have params := readsAs_ofStrings d.params
  constructor
  · simp [toJson, isReadable, allEntriesReadable, params.readable]
  · simp [toJson, ofJson, toRecord, foldMem, Draft.finish, params.decoded]

/-- The slots for resolution are not written, so a usage is read back when they are empty. -/
theorem Attribute.readsAs_toJson {a : Attribute} (unresolved : a.Unresolved) :
    ReadsAs Attribute.ofJson a.toJson a := by
  have args : ReadsAs (fun v => v.toList fun x _ => Expression.argumentOfJson x)
      (.array (a.args.map AttributeArg.toJson)) (a.args.map fun arg => ⟨arg.name, arg.value⟩) := by
    apply readsAs_array
    rw [List.forall₂_map_left_iff, List.forall₂_map_right_iff, List.forall₂_same]
    intro arg _
    exact Expression.readsAs_argument arg.name arg.value.readsAs_toJson
  constructor
  · simpa [toJson, isReadable, allEntriesReadable] using args.readable
  · calc Attribute.ofJson a.toJson
      _ = .ok a.cleared := by
        simp [toJson, ofJson, Expression.toRecord_call, args.decoded]
        rfl
      _ = .ok a := by rw [unresolved.cleared_eq]

theorem readsAs_attributesToJson {attributes : List Attribute}
    (unresolved : ∀ a ∈ attributes, a.Unresolved) :
    ReadsAs attributesOfJson (attributesToJson attributes) attributes :=
  readsAs_map fun a ha => Attribute.readsAs_toJson (unresolved a ha)

/-- A type is written in its long form, which is no text and so never taken for the shorthand. -/
theorem FieldType.readsAs_toJson (t : FieldType) : ReadsAs FieldType.ofJson t.toJson t := by
  constructor
  · simp [toJson, isReadable, allEntriesReadable]
  · simp [toJson, ofJson, toObject, foldMem]

/-! ## §5. Configuration blocks -/

theorem readsAs_configArgToJson (arg : String × Literal) :
    ReadsAs (namedOfJson Literal.ofJson) (configArgToJson arg) arg := by
  have value := arg.2.readsAs_toJson
  constructor
  · simp [configArgToJson, isReadable, allEntriesReadable, value.readable]
  · simp [configArgToJson, namedOfJson, toRecord, foldMem, value.decoded]

theorem ConfigItem.readsAs_toJson (item : ConfigItem) :
    ReadsAs ConfigItem.ofJson item.toJson item := by
  cases item with
  | invocation name args =>
    have args := readsAs_map fun arg (_ : arg ∈ args) => readsAs_configArgToJson arg
    constructor
    · simpa [toJson, isReadable, allEntriesReadable] using args.readable
    · simp [toJson, ofJson, Expression.toRecord_call, args.decoded]
  | literal l =>
    refine ⟨l.readsAs_toJson.readable, ?_⟩
    cases l <;> simp [toJson, ofJson, Literal.toJson, Literal.ofJson]

theorem ConfigValue.readsAs_toJson (value : ConfigValue) :
    ReadsAs ConfigValue.ofJson value.toJson value := by
  cases value with
  | invocation function args =>
    have read := readsAs_array (Expression.readsAs_argsToJson args)
    refine ⟨(Expression.invocation function args).readsAs_toJson.readable, ?_⟩
    simp [toJson, Expression.toJson, ofJson, Expression.toRecord_call, read.decoded]
  | array items =>
    have items := readsAs_map fun item (_ : item ∈ items) => item.readsAs_toJson
    constructor
    · simpa [toJson, isReadable, allEntriesReadable] using items.readable
    · simp [toJson, ofJson, items.decoded]
  | literal l =>
    refine ⟨l.readsAs_toJson.readable, ?_⟩
    cases l <;> simp [toJson, ofJson, Literal.toJson, Literal.ofJson]

theorem ConfigEntry.readsAs_toJson (e : ConfigEntry) : ReadsAs ConfigEntry.ofJson e.toJson e := by
  have value := e.value.readsAs_toJson
  constructor
  · simp [toJson, isReadable, allEntriesReadable, value.readable]
  · simp [toJson, ofJson, namedOfJson, toRecord, foldMem, value.decoded]

theorem ConfigBlock.readsAs_entries (b : ConfigBlock) :
    ReadsAs ConfigBlock.ofJson (.object (Declaration.toJson.blockEntries b)) b := by
  have entries := readsAs_map fun e (_ : e ∈ b.entries) => e.readsAs_toJson
  constructor
  · simpa [Declaration.toJson.blockEntries, isReadable, allEntriesReadable] using entries.readable
  · simp [Declaration.toJson.blockEntries, ofJson, toRecord, foldMem, entries.decoded]

/-! ## §6. Declarations -/

theorem EnumField.readsAs_toJson {f : EnumField} (unresolved : ∀ a ∈ f.attributes, a.Unresolved) :
    ReadsAs EnumField.ofJson f.toJson f := by
  have attributes := readsAs_attributesToJson unresolved
  have comments := readsAs_ofStrings f.comments
  constructor
  · simp [toJson, isReadable, allEntriesReadable, attributes.readable, comments.readable]
  · simp [toJson, ofJson, toObject, foldMem, attributes.decoded, comments.decoded]

theorem Field.readsAs_toJson {f : Field} (unresolved : ∀ a ∈ f.attributes, a.Unresolved) :
    ReadsAs Field.ofJson f.toJson f := by
  have type := f.type.readsAs_toJson
  have attributes := readsAs_attributesToJson unresolved
  have comments := readsAs_ofStrings f.comments
  constructor
  · simp [toJson, isReadable, allEntriesReadable, type.readable, attributes.readable,
      comments.readable]
  · simp [toJson, ofJson, toRecord, foldMem, type.decoded, attributes.decoded, comments.decoded]

/-- A body that does not use the key of the kind is what is left when the kind is taken out. -/
theorem Declaration.readsAs_tagged {kind : String} {body : List (String × Json)}
    {decl : Declaration} (untagged : ∀ e ∈ body, e.1 ≠ "kind")
    (h : ReadsAs (Declaration.ofBody kind) (.object body) decl) :
    ReadsAs Declaration.ofJson (.object (("kind", .string kind) :: body)) decl := by
  -- the kind is looked for among all entries, so the body must not bring a second one
  have none : body.filter (·.1 == "kind") = [] := by
    rw [List.filter_eq_nil_iff]
    intro e he
    simpa using untagged e he
  have all : body.filter (·.1 != "kind") = body := by
    rw [List.filter_eq_self]
    intro e he
    simpa using untagged e he
  have readable : (Json.object (("kind", .string kind) :: body)).isReadable = true := by
    simpa [isReadable, allEntriesReadable] using h.readable
  refine ⟨readable, ?_⟩
  simp [ofJson, readable, none, all, h.decoded]

theorem Declaration.readsAs_toJson {decl : Declaration} (unresolved : decl.Unresolved) :
    ReadsAs Declaration.ofJson decl.toJson decl := by
  cases decl with
  | datasource b =>
    have body := b.readsAs_entries
    refine readsAs_tagged (by simp [toJson.blockEntries]) ⟨body.readable, ?_⟩
    simp [ofBody, body.decoded]
  | generator b =>
    have body := b.readsAs_entries
    refine readsAs_tagged (by simp [toJson.blockEntries]) ⟨body.readable, ?_⟩
    simp [ofBody, body.decoded]
  | enum e =>
    have fields := readsAs_map fun f (member : f ∈ e.fields) =>
      EnumField.readsAs_toJson fun a ha =>
        unresolved a (List.mem_append_right _ (List.mem_flatMap.2 ⟨f, member, ha⟩))
    have attributes := readsAs_attributesToJson fun a ha =>
      unresolved a (List.mem_append_left _ ha)
    have comments := readsAs_ofStrings e.comments
    refine readsAs_tagged (by simp) ⟨?_, ?_⟩
    · simpa [isReadable, allEntriesReadable, attributes.readable, comments.readable]
        using fields.readable
    · simp [ofBody, EnumDecl.ofJson, toRecord, foldMem, fields.decoded, attributes.decoded,
        comments.decoded]
  | model m =>
    have fields := readsAs_map fun f (member : f ∈ m.fields) =>
      Field.readsAs_toJson fun a ha =>
        unresolved a (List.mem_append_right _ (List.mem_flatMap.2 ⟨f, member, ha⟩))
    have attributes := readsAs_attributesToJson fun a ha =>
      unresolved a (List.mem_append_left _ ha)
    have comments := readsAs_ofStrings m.comments
    have superTypes := readsAs_ofStrings m.superTypes
    refine readsAs_tagged (by simp) ⟨?_, ?_⟩
    · simpa [isReadable, allEntriesReadable, attributes.readable, comments.readable,
        superTypes.readable] using fields.readable
    · simp [ofBody, Model.ofJson, Model.Draft.put, toRecord, foldMem, fields.decoded,
        attributes.decoded, comments.decoded, superTypes.decoded]

/-! ## §7. Documents -/

/-- **Reading undoes writing.**  A document whose usages are not resolved is read back from its tree
    as it was: its attribute declarations, its flag, and its declarations of all kinds with the
    types, comments, usages, configuration values and expressions inside them. -/
theorem Document.ofJson_toJson {d : Document} (unresolved : d.Unresolved) :
    Document.ofJson d.toJson = .ok d := by
  have attributes := readsAs_map fun decl (_ : decl ∈ d.attributes) => decl.readsAs_toJson
  have declarations := readsAs_map fun decl (member : decl ∈ d.declarations) =>
    Declaration.readsAs_toJson fun a ha =>
      unresolved a (List.mem_flatMap.2 ⟨decl, member, ha⟩)
  simp [toJson, ofJson, toRecord, foldMem, attributes.decoded, declarations.decoded, Draft.finish]

/-- One declaration of each kind, and among their parts a literal of each type, `this` and `null`,
    and expressions inside expressions. -/
def fourKinds : Document where
  attributes := [{ name := "@key", target := true, params := ["map"], aliasOf := some "@id" }]
  flattened := true
  declarations := [
    .datasource {
      name := "db"
      entries := [⟨"url", .invocation "env" [⟨none, .literal (.string "DATABASE_URL")⟩]⟩] },
    .generator {
      name := "client"
      entries := [⟨"previewFeatures", .array [
        .literal (.boolean true),
        .invocation "index" [("sort", .string "asc"), ("depth", .number (.whole 3))]]⟩] },
    .enum {
      name := "Role"
      fields := [
        { name := "ADMIN", attributes := [{ name := "@map" }], comments := ["all rights"] }] },
    .model {
      name := "Post"
      fields := [{
        name := "author"
        type := { reference := some "User", optional := true }
        attributes := [{
          name := "@relation"
          args := [{ name := some "fields", value := .array [.reference "authorId" []] }] }] }]
      attributes := [{
        name := "@@deny"
        args := [{
          name := none
          value := .binary (.unary "!" (.member .this "author")) "&&"
            (.binary .null "==" (.invocation "auth" [])) }] }]
      superTypes := ["Item"] }]

/-- Nothing in the document of four kinds is resolved, so it is read back. -/
theorem fourKinds_read_back :
    fourKinds.Unresolved ∧ Document.ofJson fourKinds.toJson = .ok fourKinds := by
  have unresolved : fourKinds.Unresolved := by
    intro a ha
    simp only [fourKinds, Document.usages, Declaration.usages, List.flatMap_cons, List.flatMap_nil,
      List.append_nil, List.nil_append, List.cons_append, List.mem_cons, List.not_mem_nil,
      or_false] at ha
    rcases ha with rfl | rfl | rfl
    · exact ⟨rfl, by simp⟩
    · exact ⟨rfl, by simp⟩
    · exact ⟨rfl, by simp⟩
  exact ⟨unresolved, Document.ofJson_toJson unresolved⟩

end DelegateSchema
