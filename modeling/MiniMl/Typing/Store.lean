import MiniMl.Diagnostic

/-! # Type cells

Types are ground kinds held in cells. A cell starts unknown or known, a known cell keeps its kind,
and two unknown cells can be linked, after which fixing one fixes the other. Cells are numbered
in the order of their creation and `Store` holds them all.
-/

namespace MiniMl

inductive Kind where
  | int | float | bool | unit | string | pair | function
deriving DecidableEq, Repr

def Kind.name : Kind → String
  | int => "int"
  | float => "float"
  | bool => "bool"
  | unit => "unit"
  | string => "string"
  | pair => "pair"
  | function => "fun"

def Kind.isNumeric : Kind → Bool
  | int | float => true
  | _ => false

abbrev Cell := Nat

inductive Slot where
  | unknown
  | known (kind : Kind)
  | link (cell : Cell)
deriving DecidableEq, Repr

structure Store where
  slots : Array Slot
deriving DecidableEq, Repr

namespace Store

def empty : Store := ⟨#[]⟩

def add (s : Store) (slot : Slot) : Cell × Store := (s.slots.size, ⟨s.slots.push slot⟩)

def chase (s : Store) : (bound : Nat) → Cell → Cell
  | 0, c => c
  | bound + 1, c =>
    match s.slots[c]? with
    | some (.link next) => chase s bound next
    | _ => c

/-- The cell at the end of the links. A chain without a cycle has fewer links than there are
cells. -/
def root (s : Store) (c : Cell) : Cell := s.chase s.slots.size c

def kind? (s : Store) (c : Cell) : Option Kind :=
  match s.slots[s.root c]? with
  | some (.known kind) => some kind
  | _ => none

def isUnknown (s : Store) (c : Cell) : Bool := (s.kind? c).isNone

def name (s : Store) (c : Cell) : String := ((s.kind? c).map Kind.name).getD "unknown"

def shares (s : Store) (a b : Cell) : Bool := s.root a == s.root b

def fix (s : Store) (c : Cell) (kind : Kind) : Store :=
  ⟨s.slots.setIfInBounds (s.root c) (.known kind)⟩

/-- Links the end of one chain to the end of the other. -/
def join (s : Store) (a b : Cell) : Store :=
  if s.root a = s.root b then s else ⟨s.slots.setIfInBounds (s.root a) (.link (s.root b))⟩

end Store

/-- What a typing rule does: it may fix and link cells, also before it fails. -/
abbrev Typing := EStateM Diagnostic Store

structure Typed where
  cell : Cell
  location : Location
deriving DecidableEq, Repr

namespace Typing

def new (slot : Slot) : Typing Cell := modifyGet (·.add slot)

def expect (x : Typed) (kind : Kind) : Typing Unit := do
  let s ← get
  if s.kind? x.cell = some kind then pure ()
  else throw ⟨.typeMismatch kind.name (s.name x.cell), x.location⟩

/-- Fixes an unknown cell, and requires the kind of a known one. -/
def expectOrInfer (x : Typed) (kind : Kind) : Typing Unit := do
  match (← get).kind? x.cell with
  | none => modify (·.fix x.cell kind)
  | some _ => expect x kind

def unexpect (x : Typed) : Typing α := do
  throw ⟨.unexpectedType ((← get).name x.cell), x.location⟩

/-- Makes two cells agree: a known one fixes an unknown one, two unknown ones are linked. -/
def unify (a b : Cell) (location : Location) : Typing Unit := do
  let s ← get
  match s.kind? a, s.kind? b with
  | some kind, some _ => expect ⟨b, location⟩ kind
  | some kind, none => expectOrInfer ⟨b, location⟩ kind
  | none, some kind => expectOrInfer ⟨a, location⟩ kind
  | none, none => modify (·.join a b)

end Typing

/-- The cells of a function's parameters and of its result. -/
structure Signature where
  params : List Cell
  result : Cell
deriving DecidableEq, Repr

namespace Signature

def arity (f : Signature) : Nat := f.params.length

def display (f : Signature) (s : Store) : String :=
  let params := if f.params.isEmpty then "unit" else " * ".intercalate (f.params.map s.name)
  params ++ " -> " ++ s.name f.result

def newParams : Nat → Typing (List Cell)
  | 0 => pure []
  | n + 1 => do
    let first ← Typing.new .unknown
    let others ← newParams n
    pure (first :: others)

def new (arity : Nat) : Typing Signature := do
  let params ← newParams arity
  let result ← Typing.new .unknown
  pure ⟨params, result⟩

end Signature

end MiniMl
