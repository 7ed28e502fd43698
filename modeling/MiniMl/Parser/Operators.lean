import MiniMl.Token.Basic

/-! # Operators

How strongly binary operators bind, and what can start an operand or an argument.
-/

namespace MiniMl

/-- The powers of binary operators, the weakest first. -/
inductive Power where
  | logicalOr | logicalAnd | relational | additive | multiplicative
deriving DecidableEq, Repr

def Power.level : Power → Nat
  | logicalOr => 0
  | logicalAnd => 1
  | relational => 2
  | additive => 3
  | multiplicative => 4

namespace TokenKind

def power? : TokenKind → Option Power
  | logicalOr => some .logicalOr
  | logicalAnd => some .logicalAnd
  | less | lessEquals | greater | greaterEquals | equals | notEquals => some .relational
  | plus | dash => some .additive
  | star | slash => some .multiplicative
  | _ => none

/-- Whether a token of this kind starts an argument of a chain `f a b`. -/
def startsArgument : TokenKind → Bool
  | identifier | int | float | bool | string | fstWord | sndWord => true
  | _ => false

def startsOperand : TokenKind → Bool
  | identifier | int | float | bool | string | unit | plus | dash | openParen | fstWord | sndWord
  | ifWord | whileWord | letWord => true
  | _ => false

end TokenKind

end MiniMl
