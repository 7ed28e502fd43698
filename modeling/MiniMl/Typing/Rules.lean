import MiniMl.Token.Basic
import MiniMl.Typing.Store

/-! # Typing rules

One rule for each form of expression. A rule fixes and links the cells of the parts and answers
the cell of the whole.
-/

namespace MiniMl.Typing

/-- The kind that both operands of an operator get: that of the left one if it is known, else that
of the right one, and `int` when nothing is known. -/
def operandKind (allowed : List Kind) (lhs rhs : Typed) : Typing Kind := do
  let s ← get
  let kind ←
    match s.kind? lhs.cell, s.kind? rhs.cell with
    | some kind, _ => if kind ∈ allowed then pure kind else unexpect lhs
    | none, some kind => if kind ∈ allowed then pure kind else unexpect rhs
    | none, none => pure .int
  expectOrInfer lhs kind
  expectOrInfer rhs kind
  pure kind

def arithmetic (lhs rhs : Typed) : Typing Cell := do
  let kind ← operandKind [.int, .float] lhs rhs
  new (.known kind)

def relational (lhs rhs : Typed) : Typing Cell := do
  let _ ← operandKind [.int, .float, .bool] lhs rhs
  new (.known .bool)

def logical (lhs rhs : Typed) : Typing Cell := do
  expectOrInfer lhs .bool
  expectOrInfer rhs .bool
  new (.known .bool)

def binary (op : Token) (lhs rhs : Typed) : Typing Cell :=
  match op.kind with
  | .plus | .dash | .star | .slash => arithmetic lhs rhs
  | .less | .lessEquals | .greater | .greaterEquals | .equals | .notEquals => relational lhs rhs
  | .logicalAnd | .logicalOr => logical lhs rhs
  | _ => throw ⟨.unexpectedExpression op.display, op.location⟩

def unary (operand : Typed) : Typing Cell := do
  let kind ←
    match (← get).kind? operand.cell with
    | some kind => if kind.isNumeric then pure kind else unexpect operand
    | none => pure .int
  expectOrInfer operand kind
  new (.known kind)

def defaultToUnit (x : Typed) : Typing Unit := do
  if (← get).isUnknown x.cell then expectOrInfer x .unit

/-- A conditional is of the type of its first branch, which is `unit` unless something else is
known or a second branch decides. -/
def conditional (condition first : Typed) (second : Option Typed) : Typing Cell := do
  expectOrInfer condition .bool
  match second with
  | none => defaultToUnit first
  | some second => unify first.cell second.cell second.location
  pure first.cell

def loop (condition body : Typed) : Typing Cell := do
  expectOrInfer condition .bool
  defaultToUnit body
  pure body.cell

def unifyArguments : List Cell → List Typed → Typing Unit
  | param :: params, arg :: args => do
    unify param arg.cell arg.location
    unifyArguments params args
  | _, _ => pure ()

def call (name : Token) (f : Signature) (args : List Typed) : Typing Cell := do
  if args.length ≠ f.arity then
    throw ⟨.arityMismatch name.value f.arity args.length, name.location⟩
  else do
    unifyArguments f.params args
    pure f.result

def functionBody (f : Signature) (body : Typed) : Typing Unit :=
  unify f.result body.cell body.location

end MiniMl.Typing

namespace MiniMl.Diagnostic

def notAFunction (name : Token) : Diagnostic := ⟨.notAFunction name.value, name.location⟩

end MiniMl.Diagnostic
