/-
  DelegateSchema.Document.Record — reading data trees into structures.

  A record is read into a draft, one slot at a time and in the order of the text: an object entry
  by entry, an array item by item under the slot names in their declared order.  Every step is
  told that the value it gets is smaller than the record, so a reader may call itself on it.
-/
import DelegateSchema.Document.FieldType
import DelegateSchema.Json.Basic

namespace DelegateSchema

/-! ## §1. Faults -/

/-- Why a tree is not the structure it should be. -/
inductive DecodeError where
  /-- The text breaks off, or holds something without a value. -/
  | broken
  /-- Another form was expected. -/
  | mismatch (expected : String)
  /-- A slot without a default is not given. -/
  | missing (slot : String)
  /-- A slot is given twice. -/
  | repeated (slot : String)
  /-- An array has more items than the record has slots. -/
  | surplus
  /-- The shorthand of a field type is refused. -/
  | fieldType (cause : FieldTypeError)
  deriving DecidableEq

/-- The wording of a fault. -/
def DecodeError.message : DecodeError → String
  | .broken => "malformed text"
  | .mismatch expected => "expected " ++ expected
  | .missing slot => "missing field '" ++ slot ++ "'"
  | .repeated slot => "duplicate field '" ++ slot ++ "'"
  | .surplus => "too many items"
  | .fieldType cause => cause.message

/-- The result of reading a tree. -/
abbrev Decoded (α : Type) := Except DecodeError α

namespace Json

/-! ## §2. Leaves -/

/-- The fault of a tree that is not of the expected form. -/
def refuse {α : Type} (expected : String) : Json → Decoded α
  | .cut | .unreadable => .error .broken
  | _ => .error (.mismatch expected)

/-- A text. -/
def toText : Json → Decoded String
  | .string s => .ok s
  | v => v.refuse "a string"

/-- A text, or null for none. -/
def toText? : Json → Decoded (Option String)
  | .null => .ok none
  | .string s => .ok (some s)
  | v => v.refuse "a string or null"

/-- A truth value. -/
def toBool : Json → Decoded Bool
  | .bool b => .ok b
  | v => v.refuse "a boolean"

/-- Passes over a value, which must not be cut off. -/
def skip {σ : Type} (v : Json) (draft : σ) : Decoded σ :=
  if v.isWhole then .ok draft else .error .broken

/-! ## §3. Lists -/

/-- Reads every element; each step knows that its element belongs to the list. -/
def mapMem {α β : Type} : (xs : List α) → ((x : α) → x ∈ xs → Decoded β) → Decoded (List β)
  | [], _ => .ok []
  | x :: xs, read => do
    let y ← read x (.head xs)
    let ys ← mapMem xs fun x h => read x (.tail _ h)
    return y :: ys

/-- Carries a draft through a list; each step knows that its element belongs to the list. -/
def foldMem {α σ : Type} : (xs : List α) → σ → (σ → (x : α) → x ∈ xs → Decoded σ) → Decoded σ
  | [], s, _ => .ok s
  | x :: xs, s, put => do
    let s ← put s x (.head xs)
    foldMem xs s fun s x h => put s x (.tail _ h)

theorem sizeOf_item {x : Json} {items : List Json} (h : x ∈ items) :
    sizeOf x < sizeOf (Json.array items) := by
  have := List.sizeOf_lt_of_mem h
  simp only [Json.array.sizeOf_spec]
  omega

theorem sizeOf_entry {e : String × Json} {entries : List (String × Json)} (h : e ∈ entries) :
    sizeOf e.2 < sizeOf (Json.object entries) := by
  have := List.sizeOf_lt_of_mem h
  obtain ⟨key, value⟩ := e
  simp only [Json.object.sizeOf_spec, Prod.mk.sizeOf_spec] at this ⊢
  omega

/-- Reads the items of an array. -/
def toList {α : Type} (v : Json) (read : (x : Json) → sizeOf x < sizeOf v → Decoded α) :
    Decoded (List α) :=
  match v, read with
  | .array items, read => mapMem items fun x h => read x (sizeOf_item h)
  | v, _ => v.refuse "an array"

/-- Reads a list of texts. -/
def toTexts (v : Json) : Decoded (List String) :=
  v.toList fun x _ => x.toText

/-! ## §4. Records -/

/-- Fills a slot that must still be empty. -/
def fill {α : Type} (slot : String) (held : Option α) (value : Decoded α) : Decoded (Option α) :=
  if held.isSome then .error (.repeated slot) else value.map some

/-- The content of a slot that has no default. -/
def need {α : Type} (slot : String) : Option α → Decoded α
  | some value => .ok value
  | none => .error (.missing slot)

/-- Puts the items of an array into the slots, in order. -/
def foldSlots {σ : Type} : (slots : List String) → (items : List Json) → σ →
    (σ → String → (x : Json) → x ∈ items → Decoded σ) → Decoded σ
  | _, [], s, _ => .ok s
  | [], _ :: _, _, _ => .error .surplus
  | slot :: slots, x :: items, s, put => do
    let s ← put s slot x (.head items)
    foldSlots slots items s fun s slot x h => put s slot x (.tail _ h)

/-- Reads the entries of an object into a draft. -/
def toObject {σ : Type} (v : Json) (start : σ)
    (put : σ → String → (x : Json) → sizeOf x < sizeOf v → Decoded σ) : Decoded σ :=
  match v, put with
  | .object entries, put => foldMem entries start fun s e h => put s e.1 e.2 (sizeOf_entry h)
  | v, _ => v.refuse "an object"

/-- Reads a record into a draft: the entries of an object, or the items of an array under the
    names `slots`. -/
def toRecord {σ : Type} (v : Json) (slots : List String) (start : σ)
    (put : σ → String → (x : Json) → sizeOf x < sizeOf v → Decoded σ) : Decoded σ :=
  match v, put with
  | .object entries, put => foldMem entries start fun s e h => put s e.1 e.2 (sizeOf_entry h)
  | .array items, put =>
    foldSlots slots items start fun s slot x h => put s slot x (sizeOf_item h)
  | v, _ => v.refuse "a record"

end Json

end DelegateSchema
