/-
  DelegateSchema.Json.Printer — the compact text of a data tree.

  No blanks stand between the tokens.  In strings the quote, the backslash and the control
  characters below the blank are escaped, five of the latter by a letter; every other character
  stands for itself.
-/
import DelegateSchema.Json.Basic

namespace DelegateSchema.Json

/-- A hexadecimal digit, lower case. -/
def hexDigit (n : Nat) : Char :=
  (Nat.toDigits 16 n).headD '0'

/-- The form of one character inside a string. -/
def escapeChar (c : Char) : List Char :=
  if c = '"' then ['\\', '"']
  else if c = '\\' then ['\\', '\\']
  else if c = '\n' then ['\\', 'n']
  else if c = '\r' then ['\\', 'r']
  else if c = '\t' then ['\\', 't']
  else if c.toNat = 8 then ['\\', 'b']
  else if c.toNat = 12 then ['\\', 'f']
  else if c.toNat < 32 then ['\\', 'u', '0', '0', hexDigit (c.toNat / 16), hexDigit (c.toNat % 16)]
  else [c]

/-- The text of a string. -/
def quote (s : String) : String :=
  "\"" ++ String.ofList (s.toList.flatMap escapeChar) ++ "\""

mutual

/-- The compact text of a tree.  A leaf without a value is written as null. -/
def compress : Json → String
  | .null | .unreadable | .cut => "null"
  | .bool b => if b then "true" else "false"
  | .number n => n.text
  | .string s => quote s
  | .array items => "[" ++ compressItems items ++ "]"
  | .object entries => "\x7b" ++ compressEntries entries ++ "\x7d"

/-- The texts of the items, with commas between them. -/
def compressItems : List Json → String
  | [] => ""
  | [item] => item.compress
  | item :: rest => item.compress ++ "," ++ compressItems rest

/-- The texts of the entries, with commas between them. -/
def compressEntries : List (String × Json) → String
  | [] => ""
  | [(key, value)] => quote key ++ ":" ++ value.compress
  | (key, value) :: rest => quote key ++ ":" ++ value.compress ++ "," ++ compressEntries rest

end

end DelegateSchema.Json
