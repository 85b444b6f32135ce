/-
  DelegateSchema.Json.Basic — data trees.

  A tree keeps the order of its entries and every repetition of a key, because both decide which
  fault of a document is met first.  Two leaves stand for what a text can hold beside values:
  something that can be passed over but has no value, and the place where the text breaks off.
-/
import DelegateSchema.Number.Basic

namespace DelegateSchema

/-- A data tree. -/
inductive Json where
  | null
  | bool (value : Bool)
  | number (value : Number)
  | string (value : String)
  | array (items : List Json)
  | object (entries : List (String × Json))
  /-- Well formed, but without a value: a number out of range, half of a surrogate pair. -/
  | unreadable
  /-- The text makes no sense from here on. -/
  | cut

namespace Json

/-! ## §1. Trees without gaps -/

mutual

/-- No part of the tree is cut off. -/
def isWhole : Json → Bool
  | .cut => false
  | .array items => allWhole items
  | .object entries => allEntriesWhole entries
  | .null | .bool _ | .number _ | .string _ | .unreadable => true

/-- No part of any item is cut off. -/
def allWhole : List Json → Bool
  | [] => true
  | item :: rest => item.isWhole && allWhole rest

/-- No part of any entry is cut off. -/
def allEntriesWhole : List (String × Json) → Bool
  | [] => true
  | (_, value) :: rest => value.isWhole && allEntriesWhole rest

end

mutual

/-- Every leaf of the tree has a value. -/
def isReadable : Json → Bool
  | .cut | .unreadable => false
  | .array items => allReadable items
  | .object entries => allEntriesReadable entries
  | .null | .bool _ | .number _ | .string _ => true

/-- Every leaf of every item has a value. -/
def allReadable : List Json → Bool
  | [] => true
  | item :: rest => item.isReadable && allReadable rest

/-- Every leaf of every entry has a value. -/
def allEntriesReadable : List (String × Json) → Bool
  | [] => true
  | (_, value) :: rest => value.isReadable && allEntriesReadable rest

end

/-! ## §2. Trees with one value per key -/

/-- Sets the value of a key: in place when the key is there, at the end otherwise. -/
def setEntry (entries : List (String × Json)) (key : String) (value : Json) :
    List (String × Json) :=
  match entries with
  | [] => [(key, value)]
  | (k, v) :: rest => if k = key then (k, value) :: rest else (k, v) :: setEntry rest key value

mutual

/-- Keeps one entry for every key: the last value, at the place of the first. -/
def distinct : Json → Json
  | .array items => .array (distinctItems items)
  | .object entries => .object (distinctEntries [] entries)
  | v => v

/-- `distinct` on every item. -/
def distinctItems : List Json → List Json
  | [] => []
  | item :: rest => item.distinct :: distinctItems rest

/-- Adds the entries to `done`, one after the other. -/
def distinctEntries (done : List (String × Json)) : List (String × Json) → List (String × Json)
  | [] => done
  | (key, value) :: rest => distinctEntries (setEntry done key value.distinct) rest

end

/-! ## §3. Access -/

/-- The value of the first entry with the given key; nothing for other trees. -/
def get? (v : Json) (key : String) : Option Json :=
  match v with
  | .object entries => entries.lookup key
  | _ => none

end Json

end DelegateSchema
