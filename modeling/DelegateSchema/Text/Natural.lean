/-
  DelegateSchema.Text.Natural — decimal digits, and whole numbers below a limit.

  A Unicode decimal digit is a character of general category Nd.  These characters come in runs
  of ten, so the class is given by the zeros of the runs.  Numbers are read from ASCII digits,
  which may follow one plus sign.  Reading goes from left to right, so that of two faults the
  first one met decides the answer.
-/

namespace DelegateSchema.Text

/-! ## §1. Digits -/

/-- The zero of every run of ten decimal digits. -/
def digitZeros : List Nat :=
  [0x30, 0x660, 0x6F0, 0x7C0, 0x966, 0x9E6, 0xA66, 0xAE6, 0xB66, 0xBE6, 0xC66, 0xCE6, 0xD66, 0xDE6,
   0xE50, 0xED0, 0xF20, 0x1040, 0x1090, 0x17E0, 0x1810, 0x1946, 0x19D0, 0x1A80, 0x1A90, 0x1B50,
   0x1BB0, 0x1C40, 0x1C50, 0xA620, 0xA8D0, 0xA900, 0xA9D0, 0xA9F0, 0xAA50, 0xABF0, 0xFF10, 0x104A0,
   0x10D30, 0x10D40, 0x11066, 0x110F0, 0x11136, 0x111D0, 0x112F0, 0x11450, 0x114D0, 0x11650,
   0x116C0, 0x116D0, 0x116DA, 0x11730, 0x118E0, 0x11950, 0x11BF0, 0x11C50, 0x11D50, 0x11DA0,
   0x11F50, 0x16A60, 0x16AC0, 0x16B50, 0x1CCF0, 0x1D7CE, 0x1D7D8, 0x1D7E2, 0x1D7EC, 0x1D7F6,
   0x1E140, 0x1E2F0, 0x1E4F0, 0x1E5F1, 0x1E950, 0x1FBF0]

/-- A decimal digit of any script. -/
def isAnyDigit (c : Char) : Bool :=
  digitZeros.any fun first => first ≤ c.toNat && c.toNat < first + 10

/-- A decimal digit of the ASCII range. -/
def isAsciiDigit (c : Char) : Bool :=
  '0' ≤ c && c ≤ '9'

/-- A letter or a decimal digit of the ASCII range. -/
def isAsciiAlnum (c : Char) : Bool :=
  isAsciiDigit c || ('a' ≤ c && c ≤ 'z') || ('A' ≤ c && c ≤ 'Z')

/-! ## §2. Whole numbers -/

/-- Why a text is not a whole number. -/
inductive NaturalError where
  /-- There is no text at all. -/
  | empty
  /-- A character is not a digit. -/
  | invalidDigit
  /-- The number reaches the limit. -/
  | tooLarge
  deriving DecidableEq

/-- The wording of a fault. -/
def NaturalError.message : NaturalError → String
  | .empty => "cannot parse integer from empty string"
  | .invalidDigit => "invalid digit found in string"
  | .tooLarge => "number too large to fit in target type"

/-- The value of an ASCII digit. -/
def digitValue (c : Char) : Nat :=
  c.toNat - '0'.toNat

/-- Appends digits to the number `acc`, which stays below `limit`. -/
def readDigits (limit : Nat) : (acc : Nat) → List Char → Except NaturalError Nat
  | acc, [] => .ok acc
  | acc, c :: rest =>
    if isAsciiDigit c then
      let next := acc * 10 + digitValue c
      if next < limit then readDigits limit next rest else .error .tooLarge
    else .error .invalidDigit

/-- Reads a whole number below `limit`. -/
def readNatural (limit : Nat) : List Char → Except NaturalError Nat
  | [] => .error .empty
  | ['+'] => .error .invalidDigit
  | '+' :: rest => readDigits limit 0 rest
  | s => readDigits limit 0 s

/-- The first number that 64 bits cannot hold. -/
def wordLimit : Nat := UInt64.size

end DelegateSchema.Text
