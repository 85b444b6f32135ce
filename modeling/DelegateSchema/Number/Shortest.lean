/-
  DelegateSchema.Number.Shortest — the fewest decimal digits that read back.

  A positive finite binary64 number is m · 2^q.  All reals between the midpoints to its two
  neighbours round to it (the midpoints themselves do when m is even).  For one digit, two
  digits, … the two decimals of that many digits around the number are tested against this
  interval in exact arithmetic; the first count with a hit wins, and of two hits the nearer one
  (the even one when both are equally near).
-/

namespace DelegateSchema.Number

/-! ## §1. A binary64 number as a fraction -/

/-- The power `2^n`. -/
def twoTo (n : Nat) : Nat := Nat.pow 2 n

/-- The power `10^n`. -/
def tenTo (n : Nat) : Nat := Nat.pow 10 n

/-- A positive number and the interval of the reals that round to it, over one denominator. -/
structure Rounding where
  /-- Numerator of the number. -/
  value : Nat
  /-- Numerator of the lower end. -/
  low : Nat
  /-- Numerator of the upper end. -/
  high : Nat
  /-- The common denominator. -/
  den : Nat
  /-- Whether the ends belong to the interval. -/
  closed : Bool

/-- The rounding interval of a binary64 number from its exponent and fraction bits. -/
def Rounding.ofParts (exponent fraction : Nat) : Rounding :=
  let m := if exponent = 0 then fraction else fraction + twoTo 52
  -- the number is 4m · 2^(shift - 1077), where shift is at least 1
  let shift := if exponent = 0 then 1 else exponent
  let below := if fraction = 0 ∧ 1 < exponent then 1 else 2
  let (num, den) := if 1077 ≤ shift then (twoTo (shift - 1077), 1) else (1, twoTo (1077 - shift))
  { value := 4 * m * num
    low := (4 * m - below) * num
    high := (4 * m + 2) * num
    den := den
    closed := m % 2 == 0 }

/-- Whether the fraction `num / den` lies in the interval. -/
def Rounding.contains (r : Rounding) (num den : Nat) : Bool :=
  let x := num * r.den
  if r.closed then r.low * den ≤ x && x ≤ r.high * den
  else r.low * den < x && x < r.high * den

/-! ## §2. Decimals around it -/

/-- A decimal number `digits · 10^exponent`. -/
structure Decimal where
  digits : Nat
  exponent : Int
  deriving DecidableEq

/-- Numerator and denominator of a decimal. -/
def Decimal.fraction (d : Decimal) : Nat × Nat :=
  if 0 ≤ d.exponent then (d.digits * tenTo d.exponent.toNat, 1)
  else (d.digits, tenTo (-d.exponent).toNat)

/-- The power of ten just below or at `value / den`, for a positive value. -/
def magnitude (value den : Nat) : Int :=
  if den ≤ value then ((Nat.toDigits 10 (value / den)).length : Int) - 1
  else
    match (List.range 400).find? fun j => den ≤ value * tenTo j with
    | some j => -(j : Int)
    | none => -400

/-- The decimal of `count` digits just below or at the number. -/
def Rounding.floor (r : Rounding) (count : Nat) : Decimal :=
  let exponent : Int := magnitude r.value r.den - count + 1
  let digits :=
    if 0 ≤ exponent then r.value / (r.den * tenTo exponent.toNat)
    else r.value * tenTo (-exponent).toNat / r.den
  ⟨digits, exponent⟩

/-- The better of the two decimals of `count` digits around the number, if one of them reads
    back. -/
def Rounding.around? (r : Rounding) (count : Nat) : Option Decimal :=
  let down := r.floor count
  let up : Decimal := ⟨down.digits + 1, down.exponent⟩
  let (downNum, downDen) := down.fraction
  let (upNum, upDen) := up.fraction
  match r.contains downNum downDen, r.contains upNum upDen with
  | false, false => none
  | true, false => some down
  | false, true => some up
  | true, true =>
    -- both denominators are equal, so the distances compare by their numerators
    let toDown := r.value * downDen - downNum * r.den
    let toUp := upNum * r.den - r.value * upDen
    if toDown < toUp then some down
    else if toUp < toDown then some up
    else if down.digits % 2 == 0 then some down
    else some up

/-- Moves trailing zeros of the digits into the exponent. -/
def Decimal.strip (d : Decimal) : Decimal :=
  if d.digits % 10 = 0 ∧ d.digits ≠ 0 then
    Decimal.strip ⟨d.digits / 10, d.exponent + 1⟩
  else d
termination_by d.digits
decreasing_by simp_all; omega

/-- The shortest decimal that reads back; seventeen digits always do. -/
def Rounding.shortest (r : Rounding) : Decimal :=
  match (List.range 17).findSome? fun i => r.around? (i + 1) with
  | some d => d.strip
  | none => (r.floor 17).strip

end DelegateSchema.Number
