import MiniMl.Scope.Arena
import MiniMl.Tree.Constant

/-! # Syntax trees

The tree of a program after its names were resolved and its types checked: uses of names carry the
symbol they refer to, and every expression has a type cell.
-/

namespace MiniMl

structure NameUse where
  token : Token
  symbol : Symbol
deriving DecidableEq, Repr

inductive Side where
  | first | second
deriving DecidableEq, Repr

mutual

inductive Term where
  | binary (op : Token) (lhs rhs : Term) (cell : Cell)
  | unary (op : Token) (operand : Term) (cell : Cell)
  | pair (token : Token) (first second : Exp) (cell : Cell)
  | projection (token : Token) (side : Side) (first second : Exp)
  /-- One after the other; the second may be such a sequence again, the first never is. -/
  | sequence (token : Token) (first second : Term)
  | var (use : NameUse)
  | constant (token : Token) (value : Constant) (cell : Cell)
  | conditional (token : Token) (condition first : Exp) (second : Option Exp) (cell : Cell)
  | loop (token : Token) (condition body : Exp) (cell : Cell)
  | letIn (token : Token) (bindings : List Binding) (body : Exp) (scope : ScopeId)
  | call (callee : NameUse) (args : List Exp) (cell : Cell)
  | paren (token : Token) (inner : Exp)

/-- A full expression: a function applied to arguments that follow it, or an operator expression
with its first token. The scope is the one it stands in. -/
inductive Exp where
  | apply (head : NameUse) (args : List Term) (cell : Cell) (scope : ScopeId)
  | single (root : Token) (item : Term) (scope : ScopeId)

/-- A binding of a let. The scope of a function is the one that binds its parameters. -/
inductive Binding where
  | value (symbol : Symbol) (body : Exp)
  | function (symbol : Symbol) (params : List Symbol) (body : Exp) (isRec : Bool)
      (scope : ScopeId)

end

mutual

def Term.cell : Term → Cell
  | .binary _ _ _ cell => cell
  | .unary _ _ cell => cell
  | .pair _ _ _ cell => cell
  | .projection _ .first first _ => first.cell
  | .projection _ .second _ second => second.cell
  | .sequence _ _ second => second.cell
  | .var use => use.symbol.cell
  | .constant _ _ cell => cell
  | .conditional _ _ _ _ cell => cell
  | .loop _ _ _ cell => cell
  | .letIn _ _ body _ => body.cell
  | .call _ _ cell => cell
  | .paren _ inner => inner.cell

def Exp.cell : Exp → Cell
  | .apply _ _ cell _ => cell
  | .single _ item _ => item.cell

end

namespace Term

/-- The token at which errors about the type are reported. -/
def token : Term → Token
  | binary _ lhs _ _ => lhs.token
  | unary op _ _ => op
  | pair token _ _ _ => token
  | projection token _ _ _ => token
  | sequence _ first _ => first.token
  | var use => use.token
  | constant token _ _ => token
  | conditional token _ _ _ _ => token
  | loop token _ _ _ => token
  | letIn token _ _ _ => token
  | call callee _ _ => callee.token
  | paren token _ => token

def typed (t : Term) : Typed := ⟨t.cell, t.token.location⟩

end Term

namespace Exp

def root : Exp → Token
  | apply head _ _ _ => head.token
  | single root _ _ => root

def scope : Exp → ScopeId
  | apply _ _ _ scope => scope
  | single _ _ scope => scope

def typed (e : Exp) : Typed := ⟨e.cell, e.root.location⟩

def var? : Exp → Option NameUse
  | single _ (.var use) _ => some use
  | _ => none

end Exp

def Binding.symbol : Binding → Symbol
  | value symbol _ => symbol
  | function symbol _ _ _ _ => symbol

inductive StmtKind where
  | var (use : NameUse)
  | define (binding : Binding)
  | exp (e : Exp)

structure Stmt where
  kind : StmtKind
  token : Token
  scope : ScopeId

/-- A checked program: its statements, all scopes and all type cells. The file scope is `scope`. -/
structure Program where
  stmts : List Stmt
  scope : ScopeId
  arena : Arena
  store : Store

def Program.find? (p : Program) (name : String) : Option Symbol := p.arena.find? p.scope name

end MiniMl
