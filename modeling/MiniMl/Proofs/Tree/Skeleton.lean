import MiniMl.Proofs.Tree.Rose
import MiniMl.Tree.Dump

/-! # Skeletons

What is left of a tree without its tokens, scopes and symbols: of each node its construct, the type
that it shows, and the names, operators and constants that it holds itself. The text of a tree is that
of its skeleton, node by node.
-/

namespace MiniMl

inductive Construct where
  | binary | unary | pair
  | projection (side : Side)
  | sequence | var | constant | conditional | loop | letIn | call | paren
  | apply | single
  | value
  | function (isRec : Bool)
  | varStmt | valueStmt | functionStmt | expStmt
deriving DecidableEq, Repr

def Construct.label : Construct → String
  | binary => "binary"
  | unary => "unary"
  | pair => "cons"
  | projection side => side.text
  | sequence => "compound"
  | var => "var"
  | constant => "constant"
  | conditional => "if"
  | loop => "while"
  | letIn => "let"
  | call => "call"
  | paren => "paren"
  | apply => "exp apply"
  | single => "exp"
  | value => "binding"
  | function isRec => if isRec then "func rec" else "func"
  | varStmt => "stmt var"
  | valueStmt => "stmt var_assign"
  | functionStmt => "stmt func_assign"
  | expStmt => "stmt exp"

inductive Field where
  | op (text : String)
  | name (text : String)
  | callee (text : String)
  | value (constant : Constant)
  | param (name type : String)
deriving DecidableEq, Repr

namespace Field

def label : Field → String
  | op _ => "op"
  | name _ => "name"
  | callee _ => "fun"
  | value _ => "value"
  | param _ _ => "param"

def text : Field → String
  | op text => text
  | name text => text
  | callee text => text
  | value constant => constant.text
  | param x type => x ++ " [" ++ type ++ "]"

end Field

/-- A node without those below it. All but the definition of a function show a type. -/
@[ext]
structure Node where
  construct : Construct
  type? : Option String
  fields : List Field
deriving DecidableEq, Repr

namespace Node

def line (depth : Nat) (n : Node) : String :=
  match n.type? with
  | some type => Dump.node depth n.construct.label type
  | none => Dump.indent depth ++ "+ " ++ n.construct.label

def fieldLines (depth : Nat) (n : Node) : List String :=
  n.fields.map fun f => Dump.field (depth + 1) f.label f.text

def rowLines (r : Nat × Node) : List String := r.2.line r.1 :: r.2.fieldLines r.1

end Node

mutual

def Term.skeleton (s : Store) : Term → Rose Node
  | .binary op lhs rhs cell =>
    .node ⟨.binary, s.name cell, [.op op.value]⟩ [lhs.skeleton s, rhs.skeleton s]
  | .unary op operand cell => .node ⟨.unary, s.name cell, [.op op.value]⟩ [operand.skeleton s]
  | .pair _ first second cell =>
    .node ⟨.pair, s.name cell, []⟩ [first.skeleton s, second.skeleton s]
  | .projection token side first second =>
    .node ⟨.projection side, s.name (Term.projection token side first second).cell, []⟩
      [first.skeleton s, second.skeleton s]
  | .sequence _ first second =>
    .node ⟨.sequence, s.name second.cell, []⟩ [first.skeleton s, second.skeleton s]
  | .var use => .node ⟨.var, s.name use.symbol.cell, [.name use.symbol.name]⟩ []
  | .constant _ value cell => .node ⟨.constant, s.name cell, [.value value]⟩ []
  | .conditional _ condition first second cell =>
    .node ⟨.conditional, s.name cell, []⟩
      (condition.skeleton s :: first.skeleton s :: Exp.optionSkeleton s second)
  | .loop _ condition body cell =>
    .node ⟨.loop, s.name cell, []⟩ [condition.skeleton s, body.skeleton s]
  | .letIn _ bindings body _ =>
    .node ⟨.letIn, s.name body.cell, []⟩ (Binding.listSkeleton s bindings ++ [body.skeleton s])
  | .call callee args cell =>
    .node ⟨.call, s.name cell, [.callee callee.symbol.name]⟩ (Exp.listSkeleton s args)
  | .paren _ inner => .node ⟨.paren, s.name inner.cell, []⟩ [inner.skeleton s]

def Exp.skeleton (s : Store) : Exp → Rose Node
  | .apply head args cell _ =>
    .node ⟨.apply, s.name cell, [.callee head.symbol.name]⟩ (Term.listSkeleton s args)
  | .single _ item _ => .node ⟨.single, s.name item.cell, []⟩ [item.skeleton s]

def Binding.skeleton (s : Store) : Binding → Rose Node
  | .value symbol body =>
    .node ⟨.value, s.name symbol.cell, [.name symbol.name]⟩ [body.skeleton s]
  | .function symbol params body isRec _ =>
    .node ⟨.function isRec, symbol.typeName s,
        .name symbol.name :: params.map fun x => .param x.name (s.name x.cell)⟩
      [body.skeleton s]

def Term.listSkeleton (s : Store) : List Term → List (Rose Node)
  | [] => []
  | t :: ts => t.skeleton s :: Term.listSkeleton s ts

def Exp.listSkeleton (s : Store) : List Exp → List (Rose Node)
  | [] => []
  | e :: es => e.skeleton s :: Exp.listSkeleton s es

def Exp.optionSkeleton (s : Store) : Option Exp → List (Rose Node)
  | none => []
  | some e => [e.skeleton s]

def Binding.listSkeleton (s : Store) : List Binding → List (Rose Node)
  | [] => []
  | b :: bs => b.skeleton s :: Binding.listSkeleton s bs

end

def Stmt.skeleton (s : Store) (stmt : Stmt) : Rose Node :=
  match stmt.kind with
  | .var use => .node ⟨.varStmt, s.name use.symbol.cell, [.name use.symbol.name]⟩ []
  | .define (.value symbol body) =>
    .node ⟨.valueStmt, s.name symbol.cell, [.name symbol.name]⟩ [body.skeleton s]
  | .define (.function symbol params body isRec scope) =>
    .node ⟨.functionStmt, none, []⟩
      [(Binding.function symbol params body isRec scope).skeleton s]
  | .exp e => .node ⟨.expStmt, s.name e.cell, []⟩ [e.skeleton s]

def Program.skeleton (p : Program) : List (Rose Node) := p.stmts.map (Stmt.skeleton p.store)

/-! The text of a tree is that of its skeleton. -/

namespace Rose

def lines (depth : Nat) (t : Rose Node) : List String := (t.rows depth).flatMap Node.rowLines

def listLines (depth : Nat) (ts : List (Rose Node)) : List String :=
  (listRows depth ts).flatMap Node.rowLines

variable (depth : Nat) (n : Node) (t : Rose Node) (ts us : List (Rose Node))

theorem lines_node :
    (node n ts).lines depth = n.line depth :: (n.fieldLines depth ++ listLines (depth + 1) ts) := by
  rw [lines, rows, List.flatMap_cons]
  rfl

theorem listLines_nil : listLines depth [] = [] := rfl

theorem listLines_cons : listLines depth (t :: ts) = t.lines depth ++ listLines depth ts := by
  rw [listLines, listRows, List.flatMap_append]
  rfl

theorem lines_one :
    (node n [t]).lines depth = n.line depth :: (n.fieldLines depth ++ t.lines (depth + 1)) := by
  rw [lines_node, listLines_cons, listLines_nil, List.append_nil]

theorem lines_two (u : Rose Node) :
    (node n [t, u]).lines depth =
      n.line depth :: (n.fieldLines depth ++ (t.lines (depth + 1) ++ u.lines (depth + 1))) := by
  rw [lines_node, listLines_cons, listLines_cons, listLines_nil, List.append_nil]

theorem listLines_append :
    listLines depth (ts ++ us) = listLines depth ts ++ listLines depth us := by
  induction ts with
  | nil => rfl
  | cons t ts ih => rw [List.cons_append, listLines_cons, ih, listLines_cons, List.append_assoc]

end Rose

mutual

theorem Term.skeleton_lines (s : Store) : ∀ (t : Term) (depth : Nat),
    (t.skeleton s).lines depth = t.lines s depth
  | .binary op lhs rhs cell, depth => by
    rw [Term.skeleton, Term.lines, Rose.lines_two, lhs.skeleton_lines s, rhs.skeleton_lines s]
    rfl
  | .unary op operand cell, depth => by
    rw [Term.skeleton, Term.lines, Rose.lines_one, operand.skeleton_lines s]
    rfl
  | .pair token first second cell, depth => by
    rw [Term.skeleton, Term.lines, Rose.lines_two, first.skeleton_lines s, second.skeleton_lines s]
    rfl
  | .projection token side first second, depth => by
    rw [Term.skeleton, Term.lines, Rose.lines_two, first.skeleton_lines s, second.skeleton_lines s]
    rfl
  | .sequence token first second, depth => by
    rw [Term.skeleton, Term.lines, Rose.lines_two, first.skeleton_lines s, second.skeleton_lines s]
    rfl
  | .var use, depth => by
    rw [Term.skeleton, Term.lines, Rose.lines_node]
    rfl
  | .constant token value cell, depth => by
    rw [Term.skeleton, Term.lines, Rose.lines_node]
    rfl
  | .conditional token condition first second cell, depth => by
    rw [Term.skeleton, Term.lines, Rose.lines_node, Rose.listLines_cons, Rose.listLines_cons,
      condition.skeleton_lines s, first.skeleton_lines s, Exp.optionSkeleton_lines s second,
      List.append_assoc]
    rfl
  | .loop token condition body cell, depth => by
    rw [Term.skeleton, Term.lines, Rose.lines_two, condition.skeleton_lines s, body.skeleton_lines s]
    rfl
  | .letIn token bindings body scope, depth => by
    rw [Term.skeleton, Term.lines, Rose.lines_node, Rose.listLines_append, Rose.listLines_cons,
      Rose.listLines_nil, Binding.listSkeleton_lines s bindings, body.skeleton_lines s,
      List.append_nil]
    rfl
  | .call callee args cell, depth => by
    rw [Term.skeleton, Term.lines, Rose.lines_node, Exp.listSkeleton_lines s args]
    rfl
  | .paren token inner, depth => by
    rw [Term.skeleton, Term.lines, Rose.lines_one, inner.skeleton_lines s]
    rfl

theorem Exp.skeleton_lines (s : Store) : ∀ (e : Exp) (depth : Nat),
    (e.skeleton s).lines depth = e.lines s depth
  | .apply head args cell scope, depth => by
    rw [Exp.skeleton, Exp.lines, Rose.lines_node, Term.listSkeleton_lines s args]
    rfl
  | .single root item scope, depth => by
    rw [Exp.skeleton, Exp.lines, Rose.lines_one, item.skeleton_lines s]
    rfl

theorem Binding.skeleton_lines (s : Store) : ∀ (b : Binding) (depth : Nat),
    (b.skeleton s).lines depth = b.lines s depth
  | .value symbol body, depth => by
    rw [Binding.skeleton, Binding.lines, Rose.lines_one, body.skeleton_lines s]
    rfl
  | .function symbol params body isRec scope, depth => by
    rw [Binding.skeleton, Binding.lines, Rose.lines_one, body.skeleton_lines s, functionHeader,
      Node.fieldLines, List.map_cons, List.map_map]
    rfl

theorem Term.listSkeleton_lines (s : Store) : ∀ (ts : List Term) (depth : Nat),
    Rose.listLines depth (Term.listSkeleton s ts) = Term.listLines s depth ts
  | [], _ => rfl
  | t :: ts, depth => by
    rw [Term.listSkeleton, Rose.listLines_cons, t.skeleton_lines s, Term.listSkeleton_lines s ts,
      Term.listLines]

theorem Exp.listSkeleton_lines (s : Store) : ∀ (es : List Exp) (depth : Nat),
    Rose.listLines depth (Exp.listSkeleton s es) = Exp.listLines s depth es
  | [], _ => rfl
  | e :: es, depth => by
    rw [Exp.listSkeleton, Rose.listLines_cons, e.skeleton_lines s, Exp.listSkeleton_lines s es,
      Exp.listLines]

theorem Exp.optionSkeleton_lines (s : Store) : ∀ (e : Option Exp) (depth : Nat),
    Rose.listLines depth (Exp.optionSkeleton s e) = Exp.optionLines s depth e
  | none, _ => rfl
  | some e, depth => by
    rw [Exp.optionSkeleton, Rose.listLines_cons, e.skeleton_lines s, Rose.listLines_nil,
      List.append_nil, Exp.optionLines]

theorem Binding.listSkeleton_lines (s : Store) : ∀ (bs : List Binding) (depth : Nat),
    Rose.listLines depth (Binding.listSkeleton s bs) = Binding.listLines s depth bs
  | [], _ => rfl
  | b :: bs, depth => by
    rw [Binding.listSkeleton, Rose.listLines_cons, b.skeleton_lines s,
      Binding.listSkeleton_lines s bs, Binding.listLines]

end

theorem Stmt.skeleton_lines (s : Store) (stmt : Stmt) (depth : Nat) :
    (stmt.skeleton s).lines depth = stmt.lines s depth := by
  obtain ⟨kind, token, scope⟩ := stmt
  cases kind with
  | var use => rfl
  | define b =>
    cases b with
    | value symbol body =>
      rw [Stmt.skeleton, Stmt.lines, Rose.lines_one, body.skeleton_lines s]
      rfl
    | function symbol params body isRec scope =>
      have hline : Node.line depth ⟨.functionStmt, none, []⟩ =
          Dump.indent depth ++ "+ stmt func_assign" := String.append_assoc
      rw [Stmt.skeleton, Stmt.lines, Rose.lines_one, Binding.skeleton_lines s, hline]
      rfl
  | exp e =>
    rw [Stmt.skeleton, Stmt.lines, Rose.lines_one, e.skeleton_lines s]
    rfl

/-- The lines of a program are those of its skeleton and the listing of its functions. -/
theorem Program.lines_eq (p : Program) :
    p.lines = "+ program" :: (Rose.listLines 1 p.skeleton ++ p.functionLines) := by
  rw [Program.lines, Program.skeleton]
  congr 2
  induction p.stmts with
  | nil => rfl
  | cons stmt stmts ih =>
    rw [List.flatMap_cons, List.map_cons, Rose.listLines_cons, ih, stmt.skeleton_lines]

end MiniMl
