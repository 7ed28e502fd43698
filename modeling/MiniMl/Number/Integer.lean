/-! # Decimal integers

Digits are the ten ASCII ones. Integers are those of 64 bits with a sign.
-/

namespace MiniMl

def digitValue (c : Char) : Nat := c.toNat - '0'.toNat

def decimalValue (digits : List Char) : Nat := digits.foldl (fun n c => 10 * n + digitValue c) 0

/-- Whether there is an optional minus sign (`true`) or plus sign, and what follows. -/
def splitSign : List Char → Bool × List Char
  | '-' :: rest => (true, rest)
  | '+' :: rest => (false, rest)
  | text => (false, text)

def natural? (text : List Char) : Option Nat :=
  if text ≠ [] ∧ text.all Char.isDigit then some (decimalValue text) else none

def integer? (text : List Char) : Option Int :=
  let (negative, digits) := splitSign text
  (natural? digits).map fun n => if negative then -(n : Int) else n

def powerOfTen (n : Nat) : Nat := Nat.pow 10 n

def powerOfTwo (n : Nat) : Nat := Nat.pow 2 n

def fitsInt64 (n : Int) : Bool :=
  match n with
  | .ofNat m => m < powerOfTwo 63
  | .negSucc m => m < powerOfTwo 63

def int64? (text : List Char) : Option Int := (integer? text).filter fitsInt64

end MiniMl
