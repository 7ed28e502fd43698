import Mathlib.Data.List.Forall2
import MiniMl.Proofs.Tree.Skeleton

/-! # Trees that are alike

Two trees are alike if they are built by the same constructs from the same names, operators and
constants, and the types of all their parts are shown alike. Their tokens, scopes and symbols may
differ in everything else. Trees with the same skeleton are alike.
-/

namespace MiniMl

structure Symbol.Alike (s s' : Store) (x y : Symbol) : Prop where
  name : x.name = y.name
  type : s.name x.cell = s'.name y.cell

mutual

/-- Operator expressions that are alike, each with its types as its own store shows them. The
constructs without a cell have the type of one of their parts. -/
inductive Term.Alike (s s' : Store) : Term → Term → Prop
  | binary {op op' : Token} {lhs lhs' rhs rhs' : Term} {cell cell' : Cell} :
      op.value = op'.value → s.name cell = s'.name cell' → Term.Alike s s' lhs lhs' →
      Term.Alike s s' rhs rhs' →
      Term.Alike s s' (.binary op lhs rhs cell) (.binary op' lhs' rhs' cell')
  | unary {op op' : Token} {operand operand' : Term} {cell cell' : Cell} :
      op.value = op'.value → s.name cell = s'.name cell' → Term.Alike s s' operand operand' →
      Term.Alike s s' (.unary op operand cell) (.unary op' operand' cell')
  | pair {token token' : Token} {first first' second second' : Exp} {cell cell' : Cell} :
      s.name cell = s'.name cell' → Exp.Alike s s' first first' → Exp.Alike s s' second second' →
      Term.Alike s s' (.pair token first second cell) (.pair token' first' second' cell')
  | projection {token token' : Token} {side : Side} {first first' second second' : Exp} :
      Exp.Alike s s' first first' → Exp.Alike s s' second second' →
      Term.Alike s s' (.projection token side first second) (.projection token' side first' second')
  | sequence {token token' : Token} {first first' second second' : Term} :
      Term.Alike s s' first first' → Term.Alike s s' second second' →
      Term.Alike s s' (.sequence token first second) (.sequence token' first' second')
  | var {use use' : NameUse} :
      use.symbol.Alike s s' use'.symbol → Term.Alike s s' (.var use) (.var use')
  | constant {token token' : Token} {value : Constant} {cell cell' : Cell} :
      s.name cell = s'.name cell' →
      Term.Alike s s' (.constant token value cell) (.constant token' value cell')
  | conditional {token token' : Token} {condition condition' first first' : Exp}
      {second second' : Option Exp} {cell cell' : Cell} :
      s.name cell = s'.name cell' → Exp.Alike s s' condition condition' →
      Exp.Alike s s' first first' → Option.Rel (Exp.Alike s s') second second' →
      Term.Alike s s' (.conditional token condition first second cell)
        (.conditional token' condition' first' second' cell')
  | loop {token token' : Token} {condition condition' body body' : Exp} {cell cell' : Cell} :
      s.name cell = s'.name cell' → Exp.Alike s s' condition condition' →
      Exp.Alike s s' body body' →
      Term.Alike s s' (.loop token condition body cell) (.loop token' condition' body' cell')
  | letIn {token token' : Token} {bs bs' : List Binding} {body body' : Exp}
      {scope scope' : ScopeId} :
      List.Forall₂ (Binding.Alike s s') bs bs' → Exp.Alike s s' body body' →
      Term.Alike s s' (.letIn token bs body scope) (.letIn token' bs' body' scope')
  | call {callee callee' : NameUse} {args args' : List Exp} {cell cell' : Cell} :
      callee.symbol.name = callee'.symbol.name → s.name cell = s'.name cell' →
      List.Forall₂ (Exp.Alike s s') args args' →
      Term.Alike s s' (.call callee args cell) (.call callee' args' cell')
  | paren {token token' : Token} {inner inner' : Exp} :
      Exp.Alike s s' inner inner' → Term.Alike s s' (.paren token inner) (.paren token' inner')

inductive Exp.Alike (s s' : Store) : Exp → Exp → Prop
  | apply {head head' : NameUse} {args args' : List Term} {cell cell' : Cell}
      {scope scope' : ScopeId} :
      head.symbol.name = head'.symbol.name → s.name cell = s'.name cell' →
      List.Forall₂ (Term.Alike s s') args args' →
      Exp.Alike s s' (.apply head args cell scope) (.apply head' args' cell' scope')
  | single {root root' : Token} {item item' : Term} {scope scope' : ScopeId} :
      Term.Alike s s' item item' →
      Exp.Alike s s' (.single root item scope) (.single root' item' scope')

inductive Binding.Alike (s s' : Store) : Binding → Binding → Prop
  | value {x x' : Symbol} {body body' : Exp} :
      x.Alike s s' x' → Exp.Alike s s' body body' →
      Binding.Alike s s' (.value x body) (.value x' body')
  | function {x x' : Symbol} {params params' : List Symbol} {body body' : Exp} {isRec : Bool}
      {scope scope' : ScopeId} :
      x.name = x'.name → x.typeName s = x'.typeName s' →
      List.Forall₂ (Symbol.Alike s s') params params' → Exp.Alike s s' body body' →
      Binding.Alike s s' (.function x params body isRec scope)
        (.function x' params' body' isRec scope')

end

inductive StmtKind.Alike (s s' : Store) : StmtKind → StmtKind → Prop
  | var {use use' : NameUse} : use.symbol.Alike s s' use'.symbol → Alike s s' (.var use) (.var use')
  | define {b b' : Binding} : b.Alike s s' b' → Alike s s' (.define b) (.define b')
  | exp {e e' : Exp} : e.Alike s s' e' → Alike s s' (.exp e) (.exp e')

def Program.Alike (p q : Program) : Prop :=
  List.Forall₂ (fun stmt stmt' => stmt.kind.Alike p.store q.store stmt'.kind) p.stmts q.stmts

/-! Trees with the same skeleton are alike. -/

def Term.construct : Term → Construct
  | .binary _ _ _ _ => .binary
  | .unary _ _ _ => .unary
  | .pair _ _ _ _ => .pair
  | .projection _ side _ _ => .projection side
  | .sequence _ _ _ => .sequence
  | .var _ => .var
  | .constant _ _ _ => .constant
  | .conditional _ _ _ _ _ => .conditional
  | .loop _ _ _ _ => .loop
  | .letIn _ _ _ _ => .letIn
  | .call _ _ _ => .call
  | .paren _ _ => .paren

def Exp.construct : Exp → Construct
  | .apply _ _ _ _ => .apply
  | .single _ _ _ => .single

def Binding.construct : Binding → Construct
  | .value _ _ => .value
  | .function _ _ _ isRec _ => .function isRec

def StmtKind.construct : StmtKind → Construct
  | .var _ => .varStmt
  | .define (.value _ _) => .valueStmt
  | .define (.function _ _ _ _ _) => .functionStmt
  | .exp _ => .expStmt

def Rose.construct : Rose Node → Construct
  | node n _ => n.construct

variable {s s' : Store}

theorem Term.construct_of_skeleton {t u : Term} (h : t.skeleton s = u.skeleton s') :
    t.construct = u.construct := by
  have hroot : ∀ (r : Store) (t : Term), (t.skeleton r).construct = t.construct := by
    intro r t
    cases t with
    | _ => rw [skeleton, construct, Rose.construct]
  rw [← hroot s, h, hroot s']

theorem Exp.construct_of_skeleton {e f : Exp} (h : e.skeleton s = f.skeleton s') :
    e.construct = f.construct := by
  have hroot : ∀ (r : Store) (e : Exp), (e.skeleton r).construct = e.construct := by
    intro r e
    cases e with
    | _ => rw [skeleton, construct, Rose.construct]
  rw [← hroot s, h, hroot s']

theorem Binding.construct_of_skeleton {b d : Binding} (h : b.skeleton s = d.skeleton s') :
    b.construct = d.construct := by
  have hroot : ∀ (r : Store) (b : Binding), (b.skeleton r).construct = b.construct := by
    intro r b
    cases b with
    | _ => rw [skeleton, construct, Rose.construct]
  rw [← hroot s, h, hroot s']

theorem skeleton_inj {c c' : Construct} {type type' : String} {fields fields' : List Field}
    {ts us : List (Rose Node)}
    (h : Rose.node ⟨c, some type, fields⟩ ts = .node ⟨c', some type', fields'⟩ us) :
    c = c' ∧ type = type' ∧ fields = fields' ∧ ts = us := by
  obtain ⟨hnode, hbelow⟩ := Rose.node.inj h
  obtain ⟨hconstruct, htype, hfields⟩ := Node.mk.inj hnode
  exact ⟨hconstruct, Option.some.inj htype, hfields, hbelow⟩

theorem two_inj {α : Type} {a b c d : α} (h : [a, b] = [c, d]) : a = c ∧ b = d := by
  simpa using h

theorem forall₂_of_map {α β γ : Type} {f : α → γ} {g : β → γ} {xs : List α} {ys : List β}
    (h : xs.map f = ys.map g) : List.Forall₂ (fun x y => f x = g y) xs ys := by
  rwa [← List.forall₂_eq_eq_eq, List.forall₂_map_left_iff, List.forall₂_map_right_iff] at h

theorem params_alike {xs ys : List Symbol}
    (h : xs.map (fun x => Field.param x.name (s.name x.cell)) =
      ys.map fun y => Field.param y.name (s'.name y.cell)) :
    List.Forall₂ (Symbol.Alike s s') xs ys := by
  apply (forall₂_of_map h).imp
  intro x y hparam
  obtain ⟨hname, htype⟩ := Field.param.inj hparam
  exact ⟨hname, htype⟩

mutual

theorem Term.alike_of_skeleton : ∀ t u : Term, t.skeleton s = u.skeleton s' → t.Alike s s' u
  | .binary op lhs rhs cell, u, h => by
    cases u with
    | binary op' lhs' rhs' cell' =>
      rw [Term.skeleton, Term.skeleton] at h
      obtain ⟨-, htype, hop, hbelow⟩ := skeleton_inj h
      obtain ⟨hl, hr⟩ := two_inj hbelow
      exact .binary (Field.op.inj (List.cons.inj hop).1) htype (lhs.alike_of_skeleton _ hl)
        (rhs.alike_of_skeleton _ hr)
    | _ => cases Term.construct_of_skeleton h
  | .unary op operand cell, u, h => by
    cases u with
    | unary op' operand' cell' =>
      rw [Term.skeleton, Term.skeleton] at h
      obtain ⟨-, htype, hop, hbelow⟩ := skeleton_inj h
      exact .unary (Field.op.inj (List.cons.inj hop).1) htype
        (operand.alike_of_skeleton _ (List.cons.inj hbelow).1)
    | _ => cases Term.construct_of_skeleton h
  | .pair token first second cell, u, h => by
    cases u with
    | pair token' first' second' cell' =>
      rw [Term.skeleton, Term.skeleton] at h
      obtain ⟨-, htype, -, hbelow⟩ := skeleton_inj h
      obtain ⟨hf, hs⟩ := two_inj hbelow
      exact .pair htype (first.alike_of_skeleton _ hf) (second.alike_of_skeleton _ hs)
    | _ => cases Term.construct_of_skeleton h
  | .projection token side first second, u, h => by
    cases u with
    | projection token' side' first' second' =>
      rw [Term.skeleton, Term.skeleton] at h
      obtain ⟨hside, -, -, hbelow⟩ := skeleton_inj h
      obtain rfl := Construct.projection.inj hside
      obtain ⟨hf, hs⟩ := two_inj hbelow
      exact .projection (first.alike_of_skeleton _ hf) (second.alike_of_skeleton _ hs)
    | _ => cases Term.construct_of_skeleton h
  | .sequence token first second, u, h => by
    cases u with
    | sequence token' first' second' =>
      rw [Term.skeleton, Term.skeleton] at h
      obtain ⟨-, -, -, hbelow⟩ := skeleton_inj h
      obtain ⟨hf, hs⟩ := two_inj hbelow
      exact .sequence (first.alike_of_skeleton _ hf) (second.alike_of_skeleton _ hs)
    | _ => cases Term.construct_of_skeleton h
  | .var use, u, h => by
    cases u with
    | var use' =>
      rw [Term.skeleton, Term.skeleton] at h
      obtain ⟨-, htype, hname, -⟩ := skeleton_inj h
      exact .var ⟨Field.name.inj (List.cons.inj hname).1, htype⟩
    | _ => cases Term.construct_of_skeleton h
  | .constant token value cell, u, h => by
    cases u with
    | constant token' value' cell' =>
      rw [Term.skeleton, Term.skeleton] at h
      obtain ⟨-, htype, hvalue, -⟩ := skeleton_inj h
      obtain rfl := Field.value.inj (List.cons.inj hvalue).1
      exact .constant htype
    | _ => cases Term.construct_of_skeleton h
  | .conditional token condition first second cell, u, h => by
    cases u with
    | conditional token' condition' first' second' cell' =>
      rw [Term.skeleton, Term.skeleton] at h
      obtain ⟨-, htype, -, hbelow⟩ := skeleton_inj h
      obtain ⟨hc, hbranches⟩ := List.cons.inj hbelow
      obtain ⟨hf, hs⟩ := List.cons.inj hbranches
      exact .conditional htype (condition.alike_of_skeleton _ hc) (first.alike_of_skeleton _ hf)
        (Exp.option_alike_of_skeleton second _ hs)
    | _ => cases Term.construct_of_skeleton h
  | .loop token condition body cell, u, h => by
    cases u with
    | loop token' condition' body' cell' =>
      rw [Term.skeleton, Term.skeleton] at h
      obtain ⟨-, htype, -, hbelow⟩ := skeleton_inj h
      obtain ⟨hc, hb⟩ := two_inj hbelow
      exact .loop htype (condition.alike_of_skeleton _ hc) (body.alike_of_skeleton _ hb)
    | _ => cases Term.construct_of_skeleton h
  | .letIn token bs body scope, u, h => by
    cases u with
    | letIn token' bs' body' scope' =>
      rw [Term.skeleton, Term.skeleton] at h
      obtain ⟨-, -, -, hbelow⟩ := skeleton_inj h
      obtain ⟨hbs, hb⟩ := List.append_inj' hbelow rfl
      exact .letIn (Binding.list_alike_of_skeleton bs _ hbs)
        (body.alike_of_skeleton _ (List.cons.inj hb).1)
    | _ => cases Term.construct_of_skeleton h
  | .call callee args cell, u, h => by
    cases u with
    | call callee' args' cell' =>
      rw [Term.skeleton, Term.skeleton] at h
      obtain ⟨-, htype, hcallee, hargs⟩ := skeleton_inj h
      exact .call (Field.callee.inj (List.cons.inj hcallee).1) htype
        (Exp.list_alike_of_skeleton args _ hargs)
    | _ => cases Term.construct_of_skeleton h
  | .paren token inner, u, h => by
    cases u with
    | paren token' inner' =>
      rw [Term.skeleton, Term.skeleton] at h
      obtain ⟨-, -, -, hbelow⟩ := skeleton_inj h
      exact .paren (inner.alike_of_skeleton _ (List.cons.inj hbelow).1)
    | _ => cases Term.construct_of_skeleton h
termination_by structural t => t

theorem Exp.alike_of_skeleton : ∀ e f : Exp, e.skeleton s = f.skeleton s' → e.Alike s s' f
  | .apply head args cell scope, f, h => by
    cases f with
    | apply head' args' cell' scope' =>
      rw [Exp.skeleton, Exp.skeleton] at h
      obtain ⟨-, htype, hhead, hargs⟩ := skeleton_inj h
      exact .apply (Field.callee.inj (List.cons.inj hhead).1) htype
        (Term.list_alike_of_skeleton args _ hargs)
    | single root item scope' => cases Exp.construct_of_skeleton h
  | .single root item scope, f, h => by
    cases f with
    | apply head args cell scope' => cases Exp.construct_of_skeleton h
    | single root' item' scope' =>
      rw [Exp.skeleton, Exp.skeleton] at h
      obtain ⟨-, -, -, hbelow⟩ := skeleton_inj h
      exact .single (item.alike_of_skeleton _ (List.cons.inj hbelow).1)
termination_by structural t => t

theorem Binding.alike_of_skeleton : ∀ b d : Binding, b.skeleton s = d.skeleton s' → b.Alike s s' d
  | .value x body, d, h => by
    cases d with
    | value x' body' =>
      rw [Binding.skeleton, Binding.skeleton] at h
      obtain ⟨-, htype, hname, hbelow⟩ := skeleton_inj h
      exact .value ⟨Field.name.inj (List.cons.inj hname).1, htype⟩
        (body.alike_of_skeleton _ (List.cons.inj hbelow).1)
    | function x' params' body' isRec' scope' => cases Binding.construct_of_skeleton h
  | .function x params body isRec scope, d, h => by
    cases d with
    | value x' body' => cases Binding.construct_of_skeleton h
    | function x' params' body' isRec' scope' =>
      rw [Binding.skeleton, Binding.skeleton] at h
      obtain ⟨hrec, htype, hfields, hbelow⟩ := skeleton_inj h
      obtain rfl := Construct.function.inj hrec
      obtain ⟨hname, hparams⟩ := List.cons.inj hfields
      exact .function (Field.name.inj hname) htype (params_alike hparams)
        (body.alike_of_skeleton _ (List.cons.inj hbelow).1)
termination_by structural t => t

theorem Term.list_alike_of_skeleton : ∀ ts us : List Term,
    Term.listSkeleton s ts = Term.listSkeleton s' us → List.Forall₂ (Term.Alike s s') ts us
  | [], [], _ => .nil
  | [], u :: us, h => by cases h
  | t :: ts, [], h => by cases h
  | t :: ts, u :: us, h => by
    obtain ⟨ht, hts⟩ := List.cons.inj h
    exact .cons (t.alike_of_skeleton u ht) (Term.list_alike_of_skeleton ts us hts)
termination_by structural t => t

theorem Exp.list_alike_of_skeleton : ∀ es fs : List Exp,
    Exp.listSkeleton s es = Exp.listSkeleton s' fs → List.Forall₂ (Exp.Alike s s') es fs
  | [], [], _ => .nil
  | [], f :: fs, h => by cases h
  | e :: es, [], h => by cases h
  | e :: es, f :: fs, h => by
    obtain ⟨he, hes⟩ := List.cons.inj h
    exact .cons (e.alike_of_skeleton f he) (Exp.list_alike_of_skeleton es fs hes)
termination_by structural t => t

theorem Exp.option_alike_of_skeleton : ∀ e f : Option Exp,
    Exp.optionSkeleton s e = Exp.optionSkeleton s' f → Option.Rel (Exp.Alike s s') e f
  | none, none, _ => .none
  | none, some f, h => by cases h
  | some e, none, h => by cases h
  | some e, some f, h => .some (e.alike_of_skeleton f (List.cons.inj h).1)
termination_by structural t => t

theorem Binding.list_alike_of_skeleton : ∀ bs ds : List Binding,
    Binding.listSkeleton s bs = Binding.listSkeleton s' ds → List.Forall₂ (Binding.Alike s s') bs ds
  | [], [], _ => .nil
  | [], d :: ds, h => by cases h
  | b :: bs, [], h => by cases h
  | b :: bs, d :: ds, h => by
    obtain ⟨hb, hbs⟩ := List.cons.inj h
    exact .cons (b.alike_of_skeleton d hb) (Binding.list_alike_of_skeleton bs ds hbs)
termination_by structural t => t

end

theorem Stmt.construct_of_skeleton {stmt stmt' : Stmt} (h : stmt.skeleton s = stmt'.skeleton s') :
    stmt.kind.construct = stmt'.kind.construct := by
  have hroot : ∀ (r : Store) (stmt : Stmt), (stmt.skeleton r).construct = stmt.kind.construct := by
    intro r stmt
    obtain ⟨kind, token, scope⟩ := stmt
    cases kind with
    | define b => cases b <;> rfl
    | _ => rfl
  rw [← hroot s, h, hroot s']

theorem Stmt.alike_of_skeleton {stmt stmt' : Stmt} (h : stmt.skeleton s = stmt'.skeleton s') :
    stmt.kind.Alike s s' stmt'.kind := by
  have hconstruct := Stmt.construct_of_skeleton h
  obtain ⟨kind, token, scope⟩ := stmt
  obtain ⟨kind', token', scope'⟩ := stmt'
  cases kind with
  | var use =>
    cases kind' with
    | var use' =>
      obtain ⟨-, htype, hname, -⟩ := skeleton_inj h
      exact .var ⟨Field.name.inj (List.cons.inj hname).1, htype⟩
    | define b' => cases b' <;> cases hconstruct
    | exp e' => cases hconstruct
  | define b =>
    cases kind' with
    | define b' =>
      cases b with
      | value x body =>
        cases b' with
        | value x' body' =>
          obtain ⟨-, htype, hname, hbelow⟩ := skeleton_inj h
          exact .define (.value ⟨Field.name.inj (List.cons.inj hname).1, htype⟩
            (body.alike_of_skeleton _ (List.cons.inj hbelow).1))
        | function x' params' body' isRec' scope'' => cases hconstruct
      | function x params body isRec scope' =>
        cases b' with
        | value x' body' => cases hconstruct
        | function x' params' body' isRec' scope'' =>
          obtain ⟨-, hbelow⟩ := Rose.node.inj h
          exact .define (Binding.alike_of_skeleton _ _ (List.cons.inj hbelow).1)
    | _ => cases b <;> cases hconstruct
  | exp e =>
    cases kind' with
    | exp e' =>
      obtain ⟨-, -, -, hbelow⟩ := skeleton_inj h
      exact .exp (e.alike_of_skeleton _ (List.cons.inj hbelow).1)
    | var use' => cases hconstruct
    | define b' => cases b' <;> cases hconstruct

theorem Program.alike_of_skeleton {p q : Program} (h : p.skeleton = q.skeleton) : p.Alike q :=
  (forall₂_of_map h).imp fun _ _ => Stmt.alike_of_skeleton

end MiniMl
