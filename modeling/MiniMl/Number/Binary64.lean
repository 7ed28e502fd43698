import MiniMl.Number.Integer

/-! # Binary floating point numbers of 64 bits

A finite number is a mantissa of at most 53 bits times a power of two. Powers count from the least
one, 2⁻¹⁰⁷⁴, so that all arithmetic is on natural numbers. Decimal texts are read exactly and then
rounded to the nearest number, a tie going to the even mantissa.
-/

namespace MiniMl

inductive Binary64 where
  | nan
  | infinity (negative : Bool)
  /-- The number `mantissa * 2 ^ power` units of 2⁻¹⁰⁷⁴. -/
  | finite (negative : Bool) (mantissa power : Nat)
deriving DecidableEq, Repr

/-- A decimal number `digits * 10 ^ exponent`. -/
structure Decimal where
  digits : Nat
  exponent : Int
deriving DecidableEq, Repr

namespace Decimal

def exponent? : List Char → Option Int
  | c :: text => if c = 'e' ∨ c = 'E' then integer? text else none
  | [] => some 0

def splitFraction : List Char → List Char × List Char
  | '.' :: text => (text.takeWhile Char.isDigit, text.dropWhile Char.isDigit)
  | text => ([], text)

def read? (text : List Char) : Option Decimal :=
  let whole := text.takeWhile Char.isDigit
  let (fraction, rest) := splitFraction (text.dropWhile Char.isDigit)
  if whole ++ fraction = [] then none
  else (exponent? rest).map fun e => ⟨decimalValue (whole ++ fraction), e - fraction.length⟩

end Decimal

namespace Binary64

/-- The quotient rounded to the nearest natural number, a tie going to the even one. -/
def divNearest (num den : Nat) : Nat :=
  let q := num / den
  let r := num % den
  if 2 * r < den ∨ (2 * r = den ∧ q % 2 = 0) then q else q + 1

def maxPower : Nat := 2045

/-- The number nearest to `num / den` units of 2⁻¹⁰⁷⁴. -/
def ofUnits (negative : Bool) (num den : Nat) : Binary64 :=
  let power := (num / den).log2 + 1 - 53
  let mantissa := divNearest num (den * powerOfTwo power)
  let (mantissa, power) := if mantissa = powerOfTwo 53 then (powerOfTwo 52, power + 1) else (mantissa, power)
  if power ≤ maxPower then finite negative mantissa power else infinity negative

/-- The number nearest to a decimal one. What is far too small or far too large is recognised by
the place of its first digit. -/
def ofDecimal (negative : Bool) (d : Decimal) : Binary64 :=
  let places : Int := (Nat.toDigits 10 d.digits).length + d.exponent
  if d.digits = 0 ∨ places < -400 then finite negative 0 0
  else if places > 400 then infinity negative
  else if d.exponent < 0 then
    ofUnits negative (d.digits * powerOfTwo 1074) (powerOfTen d.exponent.natAbs)
  else ofUnits negative (d.digits * powerOfTen d.exponent.natAbs * powerOfTwo 1074) 1

def named? (negative : Bool) (text : List Char) : Option Binary64 :=
  match String.ofList (text.map Char.toLower) with
  | "nan" => some nan
  | "inf" => some (infinity negative)
  | "infinity" => some (infinity negative)
  | _ => none

def read? (text : List Char) : Option Binary64 :=
  let (negative, text) := splitSign text
  ((Decimal.read? text).map (ofDecimal negative)).or (named? negative text)

end Binary64

end MiniMl
