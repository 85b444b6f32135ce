/-
  DelegateSchema.Yaml.Record — reading YAML trees into structures.

  Where a text is asked for, every scalar is one, quoted or not.  Where a list or a record is
  asked for, nothing at all stands for the empty one.  Records are mappings only.
-/
import DelegateSchema.Document.Record
import DelegateSchema.Yaml.Basic

namespace DelegateSchema.Yaml

/-- The fault of a tree that is not of the expected form. -/
def refuse {α : Type} (expected : String) : Yaml → Decoded α
  | .cut => .error .broken
  | _ => .error (.mismatch expected)

/-- A text: that of any scalar. -/
def toText : Yaml → Decoded String
  | .plain text | .quoted text => .ok text
  | v => v.refuse "a string"

/-- A text, or none where null is written. -/
def toText? : Yaml → Decoded (Option String)
  | .plain text => .ok (if isNull text then none else some text)
  | .quoted text => .ok (some text)
  | v => v.refuse "a string"

/-- A truth value. -/
def toBool : Yaml → Decoded Bool
  | .plain text =>
    match toBool? text with
    | some b => .ok b
    | none => .error (.mismatch "a boolean")
  | v => v.refuse "a boolean"

/-- A whole number of 64 bits without a minus sign. -/
def toNatural : Yaml → Decoded Nat
  | .plain text =>
    let s :=
      match text.toList with
      | '+' :: rest => rest
      | s => s
    match if isPadded text.toList then none else unsigned? s with
    | some n => if n < Text.wordLimit then .ok n else .error (.mismatch "a number")
    | none => .error (.mismatch "a number")
  | v => v.refuse "a number"

/-- A whole number, or none where null is written. -/
def toNatural? : Yaml → Decoded (Option Nat)
  | .plain text => if isNull text then .ok none else (Yaml.plain text).toNatural.map some
  | v => v.toNatural.map some

/-- The items of a sequence. -/
def toList {α : Type} (read : Yaml → Decoded α) : Yaml → Decoded (List α)
  | .sequence items => items.mapM read
  | .plain "" => .ok []
  | v => v.refuse "a sequence"

/-- Passes over a value, which must not be cut off. -/
def skip {σ : Type} (v : Yaml) (draft : σ) : Decoded σ :=
  if v.isWhole then .ok draft else .error .broken

/-- Reads the entries of a mapping into a draft, in the order of the text. -/
def toRecord {σ : Type} (start : σ) (put : σ → String → Yaml → Decoded σ) : Yaml → Decoded σ
  | .mapping entries =>
    entries.foldlM (fun s (key, value) => do put s (← key.toText) value) start
  | .plain "" => .ok start
  | v => v.refuse "a mapping"

end DelegateSchema.Yaml
