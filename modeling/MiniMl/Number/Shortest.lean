import MiniMl.Number.Binary64

/-! # Shortest decimal texts

A number is written with the fewest digits that read back as the same number, and of those with the
digits nearest to it. The point stands where it belongs; there is never an exponent.
-/

namespace MiniMl

namespace Binary64

/-- A number and the limits of what is rounded to it, all multiplied by the same factor. -/
structure Interval where
  low : Nat
  value : Nat
  high : Nat
  closed : Bool
deriving DecidableEq, Repr

namespace Interval

/-- The interval of a number in quarters of a unit. Below a power of two the next number is only
half as far. -/
def ofFinite (mantissa power : Nat) : Interval where
  low :=
    (4 * mantissa - if mantissa = powerOfTwo 52 ∧ power ≠ 0 then 1 else 2) * powerOfTwo power
  value := 4 * mantissa * powerOfTwo power
  high := (4 * mantissa + 2) * powerOfTwo power
  closed := mantissa % 2 = 0

def contains (i : Interval) (x : Nat) : Bool :=
  if i.closed then i.low ≤ x && x ≤ i.high else i.low < x && x < i.high

def scale (i : Interval) (factor : Nat) : Interval :=
  { i with low := i.low * factor, value := i.value * factor, high := i.high * factor }

/-- The multiple of `step` in the interval that is nearest to the value, the larger one on a tie,
as the number of steps. -/
def nearestMultiple? (i : Interval) (step : Nat) : Option Nat :=
  let below := i.value / step
  match i.contains (below * step), i.contains ((below + 1) * step) with
  | true, true => some (if 2 * (i.value % step) < step then below else below + 1)
  | true, false => some below
  | false, true => some (below + 1)
  | false, false => none

end Interval

def onGrid? (i : Interval) (exponent : Int) : Option Nat :=
  if exponent < 0 then (i.scale (powerOfTen exponent.natAbs)).nearestMultiple? (powerOfTwo 1076)
  else i.nearestMultiple? (powerOfTen exponent.natAbs * powerOfTwo 1076)

def coarsest? (i : Interval) : (bound : Nat) → (exponent : Int) → Option Decimal
  | 0, _ => none
  | bound + 1, exponent =>
    match onGrid? i exponent with
    | some digits => some ⟨digits, exponent⟩
    | none => coarsest? i bound (exponent - 1)

def exponentAbove (mantissa power : Nat) : Int :=
  (((mantissa * powerOfTwo power).log2 : Int) - 1074) * 30103 / 100000 + 2

/-- The shortest decimal number that reads back as the given one, which is not zero. -/
def shortest (mantissa power : Nat) : Decimal :=
  (coarsest? (.ofFinite mantissa power) 2048 (exponentAbove mantissa power)).getD ⟨0, 0⟩

end Binary64

namespace Decimal

def zeros (n : Nat) : List Char := List.replicate n '0'

def positional (d : Decimal) : List Char :=
  let digits := Nat.toDigits 10 d.digits
  let places := d.exponent.natAbs
  if d.digits = 0 then ['0']
  else if 0 ≤ d.exponent then digits ++ zeros places
  else if places < digits.length then
    digits.take (digits.length - places) ++ '.' :: digits.drop (digits.length - places)
  else '0' :: '.' :: zeros (places - digits.length) ++ digits

end Decimal

namespace Binary64

def display : Binary64 → String
  | nan => "NaN"
  | infinity negative => if negative then "-inf" else "inf"
  | finite negative mantissa power =>
    let sign := if negative then "-" else ""
    if mantissa = 0 then sign ++ "0"
    else sign ++ String.ofList (shortest mantissa power).positional

end Binary64

end MiniMl
