import MiniMl.Token.Basic
import MiniMl.Typing.Store

/-! # Symbols

What a name is bound to. A symbol is shared by all uses of its name; its number tells it apart
from other symbols of the same name.
-/

namespace MiniMl

inductive SymbolKind where
  | variable
  | function (signature : Signature)
deriving DecidableEq, Repr

structure Symbol where
  id : Nat
  name : String
  cell : Cell
  token : Token
  kind : SymbolKind
deriving DecidableEq, Repr

namespace Symbol

def signature? (x : Symbol) : Option Signature :=
  match x.kind with
  | .function f => some f
  | .variable => none

def isFunction (x : Symbol) : Bool := x.signature?.isSome

def typeName (x : Symbol) (s : Store) : String :=
  match x.kind with
  | .function f => f.display s
  | .variable => s.name x.cell

def variableOf (id : Nat) (token : Token) (cell : Cell) : Symbol :=
  ⟨id, token.value, cell, token, .variable⟩

/-- The symbol of a function; its own cell is known to be one. -/
def functionOf (id : Nat) (token : Token) (signature : Signature) : Typing Symbol := do
  let cell ← Typing.new (.known .function)
  pure ⟨id, token.value, cell, token, .function signature⟩

end Symbol

end MiniMl
