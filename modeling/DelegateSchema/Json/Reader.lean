/-
  DelegateSchema.Json.Reader — data trees from JSON text.

  The reader never fails: where the text stops making sense the tree ends in `cut`, so that a
  consumer who walks the tree in the order of the text meets its own objections before that
  place and the broken text after it.  A tree without `cut` was read to its end.
-/
import DelegateSchema.Json.Basic
import DelegateSchema.Text.Blank
import DelegateSchema.Text.Natural

namespace DelegateSchema.Json

open DelegateSchema.Text (isAsciiDigit digitValue)

/-! ## §1. Blanks and strings -/

/-- The four blanks of JSON. -/
def isSpace (c : Char) : Bool :=
  c == ' ' || c == '\n' || c == '\t' || c == '\r'

/-- The text from the first character that is not a blank. -/
def skipSpace (s : List Char) : List Char :=
  s.dropWhile isSpace

/-- The value of a hexadecimal digit of either case. -/
def hexValue? (c : Char) : Option Nat :=
  if isAsciiDigit c then some (digitValue c)
  else if 'a' ≤ c ∧ c ≤ 'f' then some (c.toNat - 'a'.toNat + 10)
  else if 'A' ≤ c ∧ c ≤ 'F' then some (c.toNat - 'A'.toNat + 10)
  else none

/-- The value of four hexadecimal digits. -/
def hexFour? (a b c d : Char) : Option Nat := do
  return (((← hexValue? a) * 16 + (← hexValue? b)) * 16 + (← hexValue? c)) * 16 + (← hexValue? d)

/-- The first half of a surrogate pair. -/
def isHighHalf (n : Nat) : Bool := 0xD800 ≤ n && n ≤ 0xDBFF

/-- The second half of a surrogate pair. -/
def isLowHalf (n : Nat) : Bool := 0xDC00 ≤ n && n ≤ 0xDFFF

/-- The character of a surrogate pair. -/
def joinHalves (high low : Nat) : Char :=
  Char.ofNat (0x10000 + (high - 0xD800) * 0x400 + (low - 0xDC00))

/-- The character that a letter after a backslash stands for. -/
def escaped? : Char → Option Char
  | '"' => some '"'
  | '\\' => some '\\'
  | '/' => some '/'
  | 'b' => some (Char.ofNat 8)
  | 'f' => some (Char.ofNat 12)
  | 'n' => some '\n'
  | 'r' => some '\r'
  | 't' => some '\t'
  | _ => none

/-- One unit of a string: a character, or half of a surrogate pair written as an escape. -/
inductive Piece where
  | char (c : Char)
  | half (n : Nat)

/-- The unit that an escape of four hexadecimal digits stands for. -/
def Piece.ofCode (n : Nat) : Piece :=
  if isHighHalf n || isLowHalf n then .half n else .char (Char.ofNat n)

/-- The characters of a string, its halves joined; nothing when a half stands alone. -/
def joinPieces : List Piece → Option (List Char)
  | [] => some []
  | .char c :: rest => (joinPieces rest).map (c :: ·)
  | .half n :: .half m :: rest =>
    if isHighHalf n && isLowHalf m then (joinPieces rest).map (joinHalves n m :: ·) else none
  | .half _ :: _ => none

/-- Puts a unit before scanned ones. -/
def prepend (piece : Piece) (scanned : List Piece × List Char) : List Piece × List Char :=
  (piece :: scanned.1, scanned.2)

/-- Scans a string up to its closing quote: its units and the text after the quote.  Nothing
    when the string is malformed. -/
def scanPieces : List Char → Option (List Piece × List Char)
  | [] => none
  | '"' :: rest => some ([], rest)
  | '\\' :: 'u' :: a :: b :: c :: d :: rest =>
    match hexFour? a b c d with
    | none => none
    | some n => (scanPieces rest).map (prepend (.ofCode n))
  | '\\' :: c :: rest =>
    match escaped? c with
    | none => none
    | some e => (scanPieces rest).map (prepend (.char e))
  | c :: rest => if c.toNat < 32 then none else (scanPieces rest).map (prepend (.char c))

/-- Scans a string up to its closing quote: its characters (nothing when a surrogate half stands
    alone) and the text after the quote. -/
def scanString (s : List Char) : Option (Option (List Char) × List Char) :=
  (scanPieces s).map fun (pieces, rest) => (joinPieces pieces, rest)

/-! ## §2. Numbers -/

/-- The number that a list of digits writes. -/
def digitsValue (ds : List Char) : Nat :=
  ds.foldl (fun n c => n * 10 + digitValue c) 0

/-- Splits off the digits at the beginning. -/
def takeDigits (s : List Char) : List Char × List Char :=
  (s.takeWhile isAsciiDigit, s.dropWhile isAsciiDigit)

/-- The exponent part of a number, if there is one; nothing when it has no digits. -/
def scanExponent (s : List Char) : Option (Option Int × List Char) :=
  match s with
  | e :: rest =>
    if e = 'e' ∨ e = 'E' then
      let (sign, rest) :=
        match rest with
        | '+' :: rest => ((1 : Int), rest)
        | '-' :: rest => (-1, rest)
        | rest => (1, rest)
      let (ds, rest) := takeDigits rest
      if ds.isEmpty then none else some (some (sign * digitsValue ds), rest)
    else some (none, s)
  | [] => some (none, s)

/-- The fraction digits of a number, if there are any; nothing when a point has no digits after
    it. -/
def scanFraction (s : List Char) : Option (List Char × List Char) :=
  match s with
  | '.' :: rest =>
    let (ds, rest) := takeDigits rest
    if ds.isEmpty then none else some (ds, rest)
  | _ => some ([], s)

/-- Scans a number: its value (nothing when it is out of range) and the text after it. -/
def scanNumber (s : List Char) : Option (Option Number × List Char) := do
  let (negative, s) :=
    match s with
    | '-' :: rest => (true, rest)
    | s => (false, s)
  let (whole, s) := takeDigits s
  -- no digits, or a zero before other digits
  if whole.isEmpty || (whole.head? == some '0' && whole.length ≠ 1) then none
  let (fraction, s) ← scanFraction s
  let (exponent, s) ← scanExponent s
  let value :=
    if fraction.isEmpty && exponent.isNone then Number.ofDigits? negative (digitsValue whole)
    else Number.ofDecimal? negative (digitsValue (whole ++ fraction))
      (exponent.getD 0 - fraction.length)
  return (value, s)

/-! ## §3. Values -/

/-- A value, and the text after it unless the text broke off inside the value. -/
abbrev Fragment := Json × Option (List Char)

/-- The text breaks off here. -/
def broken : Fragment := (.cut, none)

/-- A scanned leaf, or the break. -/
def leaf {α : Type} (make : α → Json) : Option (Option α × List Char) → Fragment
  | none => broken
  | some (none, rest) => (.unreadable, some rest)
  | some (some value, rest) => (make value, some rest)

/-- A word that is a value by itself. -/
def keyword (word : String) (value : Json) (s : List Char) : Fragment :=
  match Text.dropStart? word.toList s with
  | some rest => (value, some rest)
  | none => broken

mutual

/-- Reads one value.  Every two calls consume a character, which bounds the `fuel`. -/
def readValue : (fuel : Nat) → List Char → Fragment
  | 0, _ => broken
  | fuel + 1, s =>
    match skipSpace s with
    | '"' :: rest => leaf (fun cs => .string (String.ofList cs)) (scanString rest)
    | '[' :: rest =>
      match skipSpace rest with
      | ']' :: rest => (.array [], some rest)
      | rest => readItems fuel [] rest
    | '\x7b' :: rest =>
      match skipSpace rest with
      | '\x7d' :: rest => (.object [], some rest)
      | rest => readEntries fuel [] true rest
    | 't' :: rest => keyword "rue" (.bool true) rest
    | 'f' :: rest => keyword "alse" (.bool false) rest
    | 'n' :: rest => keyword "ull" .null rest
    | s => leaf .number (scanNumber s)

/-- Reads the items of an array from a value on; `done` holds the earlier ones, last first. -/
def readItems : (fuel : Nat) → (done : List Json) → List Char → Fragment
  | 0, done, _ => (.array (.cut :: done).reverse, none)
  | fuel + 1, done, s =>
    match readValue fuel s with
    | (value, none) => (.array (value :: done).reverse, none)
    | (value, some rest) =>
      match skipSpace rest with
      | ',' :: rest => readItems fuel (value :: done) rest
      | ']' :: rest => (.array (value :: done).reverse, some rest)
      | _ => (.array (.cut :: value :: done).reverse, none)

/-- Reads the entries of an object from a key on; `done` holds the earlier ones, last first, and
    `named` tells whether all keys so far could be read. -/
def readEntries : (fuel : Nat) → (done : List (String × Json)) → (named : Bool) → List Char →
    Fragment
  | 0, done, _, _ => (.object (("", .cut) :: done).reverse, none)
  | fuel + 1, done, named, s =>
    match skipSpace s with
    | '"' :: rest =>
      match scanString rest with
      | none => (.object (("", .cut) :: done).reverse, none)
      | some (key, rest) =>
        let named := named && key.isSome
        let key := String.ofList (key.getD [])
        match skipSpace rest with
        | ':' :: rest =>
          match readValue fuel rest with
          | (value, none) => (.object ((key, value) :: done).reverse, none)
          | (value, some rest) =>
            match skipSpace rest with
            | ',' :: rest => readEntries fuel ((key, value) :: done) named rest
            | '\x7d' :: rest =>
              (if named then .object ((key, value) :: done).reverse else .unreadable, some rest)
            | _ => (.object (("", .cut) :: (key, value) :: done).reverse, none)
        | _ => (.object (("", .cut) :: done).reverse, none)
    | _ => (.object (("", .cut) :: done).reverse, none)

end

/-! ## §4. Texts -/

/-- What a text holds: a tree, and whether only blanks follow it. -/
structure Source where
  tree : Json
  finished : Bool

/-- Reads a text. -/
def read (text : String) : Source :=
  let s := text.toList
  match readValue (2 * s.length + 2) s with
  | (tree, none) => ⟨tree, false⟩
  | (tree, some rest) => ⟨tree, (skipSpace rest).isEmpty⟩

/-- The value of a text, one entry for each key; nothing when any part of it is at fault. -/
def parse? (text : String) : Option Json :=
  let source := read text
  if source.finished && source.tree.isReadable then some source.tree.distinct else none

end DelegateSchema.Json
