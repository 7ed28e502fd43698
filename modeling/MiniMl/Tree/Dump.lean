import MiniMl.Number.Shortest
import MiniMl.Text.Quoted
import MiniMl.Tree.Basic

/-! # The tree as text

One line for each node and each of its values, two spaces deeper than the node above. A node shows
the name of its type as the store has it.
-/

namespace MiniMl

namespace Dump

def indent (depth : Nat) : String := String.ofList (List.replicate (2 * depth) ' ')

def node (depth : Nat) (label type : String) : String :=
  indent depth ++ "+ " ++ label ++ " [" ++ type ++ "]"

def field (depth : Nat) (name value : String) : String :=
  indent depth ++ "| " ++ name ++ " " ++ value

def unlines (lines : List String) : String := String.join (lines.map (· ++ "\n"))

end Dump

open Dump

def Constant.text : Constant → String
  | int value => toString value
  | float value => value.display
  | bool value => if value then "true" else "false"
  | string value => quoted value
  | unit => "()"

def Side.text : Side → String
  | first => "fst"
  | second => "snd"

def functionHeader (s : Store) (depth : Nat) (symbol : Symbol) (params : List Symbol)
    (isRec : Bool) : List String :=
  node depth (if isRec then "func rec" else "func") (symbol.typeName s) ::
    field (depth + 1) "name" symbol.name ::
    params.map fun x => field (depth + 1) "param" (x.name ++ " [" ++ s.name x.cell ++ "]")

mutual

def Term.lines (s : Store) (depth : Nat) : Term → List String
  | .binary op lhs rhs cell =>
    node depth "binary" (s.name cell) :: field (depth + 1) "op" op.value ::
      (lhs.lines s (depth + 1) ++ rhs.lines s (depth + 1))
  | .unary op operand cell =>
    node depth "unary" (s.name cell) :: field (depth + 1) "op" op.value ::
      operand.lines s (depth + 1)
  | .pair _ first second cell =>
    node depth "cons" (s.name cell) ::
      (first.lines s (depth + 1) ++ second.lines s (depth + 1))
  | .projection token side first second =>
    node depth side.text (s.name (Term.projection token side first second).cell) ::
      (first.lines s (depth + 1) ++ second.lines s (depth + 1))
  | .sequence _ first second =>
    node depth "compound" (s.name second.cell) ::
      (first.lines s (depth + 1) ++ second.lines s (depth + 1))
  | .var use =>
    [node depth "var" (s.name use.symbol.cell), field (depth + 1) "name" use.symbol.name]
  | .constant _ value cell =>
    [node depth "constant" (s.name cell), field (depth + 1) "value" value.text]
  | .conditional _ condition first second cell =>
    node depth "if" (s.name cell) ::
      (condition.lines s (depth + 1) ++ first.lines s (depth + 1) ++
        Exp.optionLines s (depth + 1) second)
  | .loop _ condition body cell =>
    node depth "while" (s.name cell) ::
      (condition.lines s (depth + 1) ++ body.lines s (depth + 1))
  | .letIn _ bindings body _ =>
    node depth "let" (s.name body.cell) ::
      (Binding.listLines s (depth + 1) bindings ++ body.lines s (depth + 1))
  | .call callee args cell =>
    node depth "call" (s.name cell) :: field (depth + 1) "fun" callee.symbol.name ::
      Exp.listLines s (depth + 1) args
  | .paren _ inner => node depth "paren" (s.name inner.cell) :: inner.lines s (depth + 1)

def Exp.lines (s : Store) (depth : Nat) : Exp → List String
  | .apply head args cell _ =>
    node depth "exp apply" (s.name cell) :: field (depth + 1) "fun" head.symbol.name ::
      Term.listLines s (depth + 1) args
  | .single _ item _ => node depth "exp" (s.name item.cell) :: item.lines s (depth + 1)

def Binding.lines (s : Store) (depth : Nat) : Binding → List String
  | .value symbol body =>
    node depth "binding" (s.name symbol.cell) :: field (depth + 1) "name" symbol.name ::
      body.lines s (depth + 1)
  | .function symbol params body isRec _ =>
    functionHeader s depth symbol params isRec ++ body.lines s (depth + 1)

def Term.listLines (s : Store) (depth : Nat) : List Term → List String
  | [] => []
  | t :: ts => t.lines s depth ++ Term.listLines s depth ts

def Exp.listLines (s : Store) (depth : Nat) : List Exp → List String
  | [] => []
  | e :: es => e.lines s depth ++ Exp.listLines s depth es

def Exp.optionLines (s : Store) (depth : Nat) : Option Exp → List String
  | none => []
  | some e => e.lines s depth

def Binding.listLines (s : Store) (depth : Nat) : List Binding → List String
  | [] => []
  | b :: bs => b.lines s depth ++ Binding.listLines s depth bs

end

/-- At the top level a definition is a statement. -/
def Stmt.lines (s : Store) (depth : Nat) (stmt : Stmt) : List String :=
  match stmt.kind with
  | .var use =>
    [node depth "stmt var" (s.name use.symbol.cell), field (depth + 1) "name" use.symbol.name]
  | .define (.value symbol body) =>
    node depth "stmt var_assign" (s.name symbol.cell) :: field (depth + 1) "name" symbol.name ::
      body.lines s (depth + 1)
  | .define (.function symbol params body isRec scope) =>
    (indent depth ++ "+ stmt func_assign") ::
      (Binding.function symbol params body isRec scope).lines s (depth + 1)
  | .exp e => node depth "stmt exp" (s.name e.cell) :: e.lines s (depth + 1)

def Program.functionLines (p : Program) : List String :=
  (p.arena.tags p.scope).map fun x => field 1 "fun" (x.name ++ " : " ++ x.typeName p.store)

def Program.lines (p : Program) : List String :=
  "+ program" :: (p.stmts.flatMap (Stmt.lines p.store 1) ++ p.functionLines)

def Program.dump (p : Program) : String := unlines p.lines

end MiniMl
