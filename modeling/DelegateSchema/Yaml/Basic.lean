/-
  DelegateSchema.Yaml.Basic — YAML trees and what their plain scalars mean.

  A plain scalar keeps its text: where a text is asked for it is that text, and where any value
  will do it is null, a truth value, a number or a text by the rules of §2.  `toJson` settles
  every scalar by the second reading.
-/
import DelegateSchema.Json.Basic
import DelegateSchema.Json.Reader

namespace DelegateSchema

/-! ## §1. Trees -/

/-- A YAML tree. -/
inductive Yaml where
  /-- A scalar without quotes, empty where nothing is written. -/
  | plain (text : String)
  /-- A scalar in quotes of either kind. -/
  | quoted (text : String)
  | sequence (items : List Yaml)
  | mapping (entries : List (Yaml × Yaml))
  /-- The text makes no sense from here on. -/
  | cut

namespace Yaml

open DelegateSchema.Json (hexValue? digitsValue takeDigits scanExponent)
open DelegateSchema.Text (isAsciiDigit)

/-! ## §2. Plain scalars -/

/-- The spellings of null. -/
def isNull (text : String) : Bool :=
  ["", "~", "null", "Null", "NULL"].contains text

/-- The spellings of the truth values. -/
def toBool? (text : String) : Option Bool :=
  if ["true", "True", "TRUE"].contains text then some true
  else if ["false", "False", "FALSE"].contains text then some false
  else none

/-- Zeros before other digits: a text, not a number. -/
def isPadded (s : List Char) : Bool :=
  let s :=
    match s with
    | '-' :: rest | '+' :: rest => rest
    | s => s
  match s with
  | '0' :: d :: rest => (d :: rest).all isAsciiDigit
  | _ => false

/-- The value of digits in a base up to sixteen, at least one of them. -/
def ofBase? (base : Nat) (s : List Char) : Option Nat :=
  if s.isEmpty then none
  else
    s.foldlM
      (fun n c => (hexValue? c).bind fun d => if d < base then some (n * base + d) else none) 0

/-- A whole number without sign, in base ten or after `0x`, `0o`, `0b`. -/
def unsigned? : List Char → Option Nat
  | '0' :: 'x' :: rest => ofBase? 16 rest
  | '0' :: 'o' :: rest => ofBase? 8 rest
  | '0' :: 'b' :: rest => ofBase? 2 rest
  | s => if isPadded s then none else ofBase? 10 s

/-- A whole number: one sign at most, plus or minus. -/
def whole? : List Char → Option Int
  | '+' :: rest => (unsigned? rest).map Int.ofNat
  | '-' :: rest => (unsigned? rest).map fun n => -Int.ofNat n
  | s => (unsigned? s).map Int.ofNat

/-- A decimal number without sign: digits with at most one point, and an exponent. -/
def decimal? (negative : Bool) (s : List Char) : Option Number := do
  let (whole, s) := takeDigits s
  let (fraction, s) :=
    match s with
    | '.' :: rest => takeDigits rest
    | s => ([], s)
  if whole.isEmpty && fraction.isEmpty then none
  let (exponent, s) ← scanExponent s
  if !s.isEmpty then none
  Number.ofDecimal? negative (digitsValue (whole ++ fraction)) (exponent.getD 0 - fraction.length)

/-- A decimal number with at most one sign. -/
def real? : List Char → Option Number
  | '+' :: rest => decimal? false rest
  | '-' :: rest => decimal? true rest
  | s => decimal? false s

/-- The spellings of the numbers that are not finite. -/
def isInfinite (text : String) : Bool :=
  [".inf", ".Inf", ".INF", "+.inf", "+.Inf", "+.INF", "-.inf", "-.Inf", "-.INF", ".nan", ".NaN",
    ".NAN"].contains text

/-- The value of a plain scalar: null, a truth value, a number, or else its text.  Whole numbers
    of more than 64 and at most 128 bits, and numbers that are not finite, have no value. -/
def scalar (text : String) : Json :=
  let s := text.toList
  if isNull text then .null
  else
    match toBool? text with
    | some b => .bool b
    | none =>
      match whole? s with
      | some n =>
        if -(Number.twoTo 63 : Int) ≤ n ∧ n < Number.twoTo 64 then .number (.whole n)
        else if -(Number.twoTo 127 : Int) ≤ n ∧ n < Number.twoTo 128 then .unreadable
        else
          match real? s with
          | some x => .number x
          | none => .string text
      | none =>
        if isInfinite text then .unreadable
        else if isPadded s then .string text
        else
          match real? s with
          | some x => .number x
          | none => .string text

/-! ## §3. Settled trees -/

/-- The text of a key: a text, or the digits of a whole number. -/
def key? : Yaml → Option String
  | .quoted text => some text
  | .plain text =>
    match scalar text with
    | .string _ | .number (.whole _) => some text
    | _ => none
  | _ => none

mutual

/-- The tree with every plain scalar settled.  A mapping with a key that is no text cannot be
    read. -/
def toJson : Yaml → Json
  | .plain text => scalar text
  | .quoted text => .string text
  | .sequence items => .array (itemsToJson items)
  | .mapping entries =>
    match entriesToJson entries with
    | some entries => .object entries
    | none => .unreadable
  | .cut => .cut

/-- The items of a sequence. -/
def itemsToJson : List Yaml → List Json
  | [] => []
  | item :: rest => item.toJson :: itemsToJson rest

/-- The entries of a mapping, if every key is a text. -/
def entriesToJson : List (Yaml × Yaml) → Option (List (String × Json))
  | [] => some []
  | (key, value) :: rest =>
    match key.key?, entriesToJson rest with
    | some key, some entries => some ((key, value.toJson) :: entries)
    | _, _ => none

end

/-! ## §4. Trees without gaps -/

mutual

/-- No part of the tree is cut off. -/
def isWhole : Yaml → Bool
  | .cut => false
  | .plain _ | .quoted _ => true
  | .sequence items => allWhole items
  | .mapping entries => allEntriesWhole entries

/-- No part of any item is cut off. -/
def allWhole : List Yaml → Bool
  | [] => true
  | item :: rest => item.isWhole && allWhole rest

/-- No part of any entry is cut off. -/
def allEntriesWhole : List (Yaml × Yaml) → Bool
  | [] => true
  | (key, value) :: rest => key.isWhole && value.isWhole && allEntriesWhole rest

end

end Yaml

end DelegateSchema
