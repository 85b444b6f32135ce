/-
  DelegateSchema.Number.Basic — the numbers a document can hold, and their text.

  A number is a whole number of 64 bits, signed or unsigned, or a finite binary64 number given
  by its bits.  Written without fraction and exponent, and within range, it is whole; everything
  else is binary64, and so is a negative zero.
-/
import DelegateSchema.Number.Shortest

namespace DelegateSchema

/-- A number of a document. -/
inductive Number where
  /-- A whole number from -2^63 to 2^64 - 1. -/
  | whole (value : Int)
  /-- A finite binary64 number, by its bits. -/
  | binary (bits : UInt64)
  deriving DecidableEq

namespace Number

/-! ## §1. Text -/

/-- How binary64 numbers are written: positionally while the decimal point falls at most
    `widest` digits after the first digit and fewer than `smallest` zeros before it, with an
    exponent of explicit sign otherwise. -/
structure Layout where
  widest : Int
  smallest : Int

/-- Positional notation from 1e-5 up to, and without, 1e16. -/
def Layout.standard : Layout := ⟨16, 5⟩

/-- `count` zeros. -/
def zeros (count : Nat) : String :=
  String.ofList (List.replicate count '0')

/-- The text of a positive decimal. -/
def Decimal.text (style : Layout) (d : Decimal) : String :=
  let digits := Nat.toDigits 10 d.digits
  let length : Int := digits.length
  -- the decimal point stands after this many digits
  let point := length + d.exponent
  if 0 ≤ d.exponent ∧ point ≤ style.widest then
    String.ofList digits ++ zeros d.exponent.toNat ++ ".0"
  else if 0 < point ∧ point ≤ style.widest then
    String.ofList (digits.take point.toNat) ++ "." ++ String.ofList (digits.drop point.toNat)
  else if -style.smallest < point ∧ point ≤ 0 then
    "0." ++ zeros (-point).toNat ++ String.ofList digits
  else
    let exponent := point - 1
    let fraction := if digits.length = 1 then "" else "." ++ String.ofList (digits.drop 1)
    let sign := if 0 ≤ exponent then "+" else "-"
    String.ofList (digits.take 1) ++ fraction ++ "e" ++ sign ++ Nat.repr exponent.natAbs

/-- The text of a finite binary64 number: the fewest digits that read back. -/
def binaryText (bits : UInt64) : String :=
  let sign := if bits.toNat / twoTo 63 = 1 then "-" else ""
  let exponent := bits.toNat / twoTo 52 % twoTo 11
  let fraction := bits.toNat % twoTo 52
  if exponent = 0 ∧ fraction = 0 then sign ++ "0.0"
  else sign ++ (Rounding.ofParts exponent fraction).shortest.text .standard

/-- The text of a number. -/
def text : Number → String
  | .whole value => if value < 0 then "-" ++ Nat.repr value.natAbs else Nat.repr value.natAbs
  | .binary bits => binaryText bits

/-! ## §2. Numbers from decimal digits -/

/-- The binary64 number nearest to `digits · 10^exponent`, or nothing when that is too large.
    An exponent far outside the range decides the answer without the power being computed. -/
def ofDecimal? (negative : Bool) (digits : Nat) (exponent : Int) : Option Number :=
  let size : Int := (Nat.toDigits 10 digits).length
  let magnitude : Option Float :=
    if digits = 0 then some 0.0
    else if 310 < size + exponent then none
    else if size + exponent < -400 then some 0.0
    else
      let x := Float.ofScientific digits (exponent < 0) exponent.natAbs
      if x.isInf then none else some x
  magnitude.map fun x => .binary (if negative then -x else x).toBits

/-- The number written as a sign and digits, without fraction and exponent. -/
def ofDigits? (negative : Bool) (digits : Nat) : Option Number :=
  if negative then
    if digits = 0 ∨ twoTo 63 < digits then ofDecimal? true digits 0
    else some (.whole (-digits))
  else if digits < twoTo 64 then some (.whole digits)
  else ofDecimal? false digits 0

end Number

end DelegateSchema
