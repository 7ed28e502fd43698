import MiniMl.Proofs.Typing.Relocation
import MiniMl.Tree.Dump

/-! # Trees at other locations

A relocated tree has the same cells and is shown by the same text.
-/

namespace MiniMl

variable (f : Location → Location)

def NameUse.relocate (use : NameUse) : NameUse :=
  ⟨use.token.relocate f, use.symbol.relocate f⟩

mutual

def Term.relocate : Term → Term
  | .binary op lhs rhs cell => .binary (op.relocate f) lhs.relocate rhs.relocate cell
  | .unary op operand cell => .unary (op.relocate f) operand.relocate cell
  | .pair token first second cell => .pair (token.relocate f) first.relocate second.relocate cell
  | .projection token side first second =>
    .projection (token.relocate f) side first.relocate second.relocate
  | .sequence token first second => .sequence (token.relocate f) first.relocate second.relocate
  | .var use => .var (use.relocate f)
  | .constant token value cell => .constant (token.relocate f) value cell
  | .conditional token condition first second cell =>
    .conditional (token.relocate f) condition.relocate first.relocate
      (Exp.relocateOption second) cell
  | .loop token condition body cell =>
    .loop (token.relocate f) condition.relocate body.relocate cell
  | .letIn token bindings body scope =>
    .letIn (token.relocate f) (Binding.relocateList bindings) body.relocate scope
  | .call callee args cell => .call (callee.relocate f) (Exp.relocateList args) cell
  | .paren token inner => .paren (token.relocate f) inner.relocate

def Exp.relocate : Exp → Exp
  | .apply head args cell scope => .apply (head.relocate f) (Term.relocateList args) cell scope
  | .single root item scope => .single (root.relocate f) item.relocate scope

def Binding.relocate : Binding → Binding
  | .value symbol body => .value (symbol.relocate f) body.relocate
  | .function symbol params body isRec scope =>
    .function (symbol.relocate f) (params.map (Symbol.relocate f)) body.relocate isRec scope

def Term.relocateList : List Term → List Term
  | [] => []
  | t :: ts => t.relocate :: Term.relocateList ts

def Exp.relocateList : List Exp → List Exp
  | [] => []
  | e :: es => e.relocate :: Exp.relocateList es

def Exp.relocateOption : Option Exp → Option Exp
  | none => none
  | some e => some e.relocate

def Binding.relocateList : List Binding → List Binding
  | [] => []
  | b :: bs => b.relocate :: Binding.relocateList bs

end

@[simp] theorem Term.relocateList_eq (ts : List Term) :
    Term.relocateList f ts = ts.map (Term.relocate f) := by
  induction ts with
  | nil => rfl
  | cons t ts ih => rw [relocateList, ih, List.map_cons]

@[simp] theorem Exp.relocateList_eq (es : List Exp) :
    Exp.relocateList f es = es.map (Exp.relocate f) := by
  induction es with
  | nil => rfl
  | cons e es ih => rw [relocateList, ih, List.map_cons]

@[simp] theorem Binding.relocateList_eq (bs : List Binding) :
    Binding.relocateList f bs = bs.map (Binding.relocate f) := by
  induction bs with
  | nil => rfl
  | cons b bs ih => rw [relocateList, ih, List.map_cons]

mutual

theorem Term.relocate_id (t : Term) : t.relocate id = t := by
  cases t with
  | binary op lhs rhs cell => rw [Term.relocate, lhs.relocate_id, rhs.relocate_id]; rfl
  | unary op operand cell => rw [Term.relocate, operand.relocate_id]; rfl
  | pair token first second cell => rw [Term.relocate, first.relocate_id, second.relocate_id]; rfl
  | projection token side first second =>
    rw [Term.relocate, first.relocate_id, second.relocate_id]
    rfl
  | sequence token first second => rw [Term.relocate, first.relocate_id, second.relocate_id]; rfl
  | var use => rfl
  | constant token value cell => rfl
  | conditional token condition first second cell =>
    rw [Term.relocate, condition.relocate_id, first.relocate_id, Exp.relocateOption_id second]
    rfl
  | loop token condition body cell =>
    rw [Term.relocate, condition.relocate_id, body.relocate_id]
    rfl
  | letIn token bindings body scope =>
    rw [Term.relocate, Binding.relocateList_id bindings, body.relocate_id]
    rfl
  | call callee args cell => rw [Term.relocate, Exp.relocateList_id args]; rfl
  | paren token inner => rw [Term.relocate, inner.relocate_id]; rfl

theorem Exp.relocate_id (e : Exp) : e.relocate id = e := by
  cases e with
  | apply head args cell scope => rw [Exp.relocate, Term.relocateList_id args]; rfl
  | single root item scope => rw [Exp.relocate, item.relocate_id]; rfl

theorem Binding.relocate_id (b : Binding) : b.relocate id = b := by
  cases b with
  | value symbol body => rw [Binding.relocate, body.relocate_id]; rfl
  | function symbol params body isRec scope =>
    have hparams : params.map (Symbol.relocate id) = params := List.map_id params
    rw [Binding.relocate, body.relocate_id, hparams]
    rfl

theorem Term.relocateList_id (ts : List Term) : Term.relocateList id ts = ts := by
  cases ts with
  | nil => rfl
  | cons t ts => rw [Term.relocateList, t.relocate_id, Term.relocateList_id ts]

theorem Exp.relocateList_id (es : List Exp) : Exp.relocateList id es = es := by
  cases es with
  | nil => rfl
  | cons e es => rw [Exp.relocateList, e.relocate_id, Exp.relocateList_id es]

theorem Exp.relocateOption_id (e : Option Exp) : Exp.relocateOption id e = e := by
  cases e with
  | none => rfl
  | some e => rw [Exp.relocateOption, e.relocate_id]

theorem Binding.relocateList_id (bs : List Binding) : Binding.relocateList id bs = bs := by
  cases bs with
  | nil => rfl
  | cons b bs => rw [Binding.relocateList, b.relocate_id, Binding.relocateList_id bs]

end

def StmtKind.relocate : StmtKind → StmtKind
  | .var use => .var (use.relocate f)
  | .define binding => .define (binding.relocate f)
  | .exp e => .exp (e.relocate f)

def Stmt.relocate (stmt : Stmt) : Stmt :=
  { stmt with kind := stmt.kind.relocate f, token := stmt.token.relocate f }

def Program.relocate (p : Program) : Program :=
  { p with stmts := p.stmts.map (Stmt.relocate f), arena := p.arena.relocate f }

@[simp] theorem Constant.ofToken_relocate (token : Token) :
    ofToken (token.relocate f) = ofToken token := rfl

mutual

@[simp] theorem Term.relocate_cell (t : Term) : (t.relocate f).cell = t.cell := by
  cases t with
  | projection token side first second =>
    cases side with
    | first => exact first.relocate_cell
    | second => exact second.relocate_cell
  | sequence token first second => exact second.relocate_cell
  | letIn token bindings body scope => exact body.relocate_cell
  | paren token inner => exact inner.relocate_cell
  | _ => rfl

@[simp] theorem Exp.relocate_cell (e : Exp) : (e.relocate f).cell = e.cell := by
  cases e with
  | apply head args cell scope => rfl
  | single root item scope => exact item.relocate_cell

end

@[simp] theorem Term.relocate_token (t : Term) : (t.relocate f).token = t.token.relocate f := by
  induction t using Term.token.induct with
  | case1 op lhs rhs cell ih => exact ih
  | case5 token first second ih => exact ih
  | _ => rfl

@[simp] theorem Exp.relocate_root (e : Exp) : (e.relocate f).root = e.root.relocate f := by
  cases e with
  | apply head args cell scope => rfl
  | single root item scope => rfl

@[simp] theorem Term.relocate_typed (t : Term) : (t.relocate f).typed = t.typed.relocate f := by
  rw [typed, relocate_cell, relocate_token]
  rfl

@[simp] theorem Exp.relocate_typed (e : Exp) : (e.relocate f).typed = e.typed.relocate f := by
  rw [typed, relocate_cell, relocate_root]
  rfl

theorem Term.map_relocate_typed (ts : List Term) :
    (ts.map (relocate f)).map typed = (ts.map typed).map (Typed.relocate f) := by
  simp [Function.comp_def]

theorem Exp.map_relocate_typed (es : List Exp) :
    (es.map (relocate f)).map typed = (es.map typed).map (Typed.relocate f) := by
  simp [Function.comp_def]

theorem Exp.relocate_var? (e : Exp) : (e.relocate f).var? = e.var?.map (NameUse.relocate f) := by
  cases e with
  | apply head args cell scope => rfl
  | single root item scope => cases item <;> rfl

theorem functionHeader_relocate (s : Store) (depth : Nat) (symbol : Symbol) (params : List Symbol)
    (isRec : Bool) :
    functionHeader s depth (symbol.relocate f) (params.map (Symbol.relocate f)) isRec =
      functionHeader s depth symbol params isRec := by
  simp [functionHeader, Function.comp_def]

mutual

theorem Term.relocate_lines (t : Term) (s : Store) (depth : Nat) :
    (t.relocate f).lines s depth = t.lines s depth := by
  cases t with
  | binary op lhs rhs cell =>
    simp [Term.relocate, Term.lines, lhs.relocate_lines, rhs.relocate_lines]
  | unary op operand cell => simp [Term.relocate, Term.lines, operand.relocate_lines]
  | pair token first second cell =>
    simp [Term.relocate, Term.lines, first.relocate_lines, second.relocate_lines]
  | projection token side first second =>
    have hcell := Term.relocate_cell f (.projection token side first second)
    simp only [Term.relocate] at hcell
    simp only [Term.relocate, Term.lines, hcell, first.relocate_lines, second.relocate_lines]
  | sequence token first second =>
    simp [Term.relocate, Term.lines, first.relocate_lines, second.relocate_lines]
  | var use => rfl
  | constant token value cell => rfl
  | conditional token condition first second cell =>
    simp only [Term.relocate, Term.lines, condition.relocate_lines, first.relocate_lines,
      Exp.relocateOption_lines second]
  | loop token condition body cell =>
    simp [Term.relocate, Term.lines, condition.relocate_lines, body.relocate_lines]
  | letIn token bindings body scope =>
    simp only [Term.relocate, Term.lines, Exp.relocate_cell, body.relocate_lines,
      Binding.relocateList_lines bindings]
  | call callee args cell =>
    simp only [Term.relocate, Term.lines, Exp.relocateList_lines args]
    rfl
  | paren token inner => simp [Term.relocate, Term.lines, inner.relocate_lines]

theorem Exp.relocate_lines (e : Exp) (s : Store) (depth : Nat) :
    (e.relocate f).lines s depth = e.lines s depth := by
  cases e with
  | apply head args cell scope =>
    simp only [Exp.relocate, Exp.lines, Term.relocateList_lines args]
    rfl
  | single root item scope => simp [Exp.relocate, Exp.lines, item.relocate_lines]

theorem Binding.relocate_lines (b : Binding) (s : Store) (depth : Nat) :
    (b.relocate f).lines s depth = b.lines s depth := by
  cases b with
  | value symbol body => simp [Binding.relocate, Binding.lines, body.relocate_lines]
  | function symbol params body isRec scope =>
    simp [Binding.relocate, Binding.lines, functionHeader_relocate, body.relocate_lines]

theorem Term.relocateList_lines (ts : List Term) (s : Store) (depth : Nat) :
    Term.listLines s depth (Term.relocateList f ts) = Term.listLines s depth ts := by
  cases ts with
  | nil => rfl
  | cons t ts =>
    simp only [Term.relocateList, Term.listLines, t.relocate_lines, Term.relocateList_lines ts]

theorem Exp.relocateList_lines (es : List Exp) (s : Store) (depth : Nat) :
    Exp.listLines s depth (Exp.relocateList f es) = Exp.listLines s depth es := by
  cases es with
  | nil => rfl
  | cons e es =>
    simp only [Exp.relocateList, Exp.listLines, e.relocate_lines, Exp.relocateList_lines es]

theorem Exp.relocateOption_lines (e : Option Exp) (s : Store) (depth : Nat) :
    Exp.optionLines s depth (Exp.relocateOption f e) = Exp.optionLines s depth e := by
  cases e with
  | none => rfl
  | some e => simp only [Exp.relocateOption, Exp.optionLines, e.relocate_lines]

theorem Binding.relocateList_lines (bs : List Binding) (s : Store) (depth : Nat) :
    Binding.listLines s depth (Binding.relocateList f bs) = Binding.listLines s depth bs := by
  cases bs with
  | nil => rfl
  | cons b bs =>
    simp only [Binding.relocateList, Binding.listLines, b.relocate_lines,
      Binding.relocateList_lines bs]

end

theorem Stmt.relocate_lines (s : Store) (depth : Nat) (stmt : Stmt) :
    (stmt.relocate f).lines s depth = stmt.lines s depth := by
  obtain ⟨kind, token, scope⟩ := stmt
  cases kind with
  | var use => rfl
  | define b =>
    cases b with
    | value symbol body =>
      simp [relocate, StmtKind.relocate, lines, Binding.relocate, body.relocate_lines]
    | function symbol params body isRec scope =>
      have hlines := Binding.relocate_lines f (.function symbol params body isRec scope)
        s (depth + 1)
      rw [Binding.relocate] at hlines
      simp [relocate, StmtKind.relocate, lines, Binding.relocate, hlines]
  | exp e => simp [relocate, StmtKind.relocate, lines, e.relocate_lines]

theorem Program.relocate_dump (p : Program) : (p.relocate f).dump = p.dump := by
  have hstmts : (p.relocate f).stmts.flatMap (Stmt.lines p.store 1) =
      p.stmts.flatMap (Stmt.lines p.store 1) := by
    simp [relocate, List.flatMap_map, Stmt.relocate_lines]
  have hfunctions : (p.relocate f).functionLines = p.functionLines := by
    simp [functionLines, relocate, Arena.relocate_tags, Function.comp_def]
  rw [dump, dump, lines, lines, hfunctions]
  change Dump.unlines (_ :: ((p.relocate f).stmts.flatMap (Stmt.lines p.store 1) ++ _)) = _
  rw [hstmts]

end MiniMl
