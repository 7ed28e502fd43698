import MiniMl.Proofs.Typing.Rules
import MiniMl.Tree.Basic

/-! # Well-typed trees

A tree is well typed in a store if the cells of each of its nodes satisfy the rule for that node.
Nothing that is learned later makes a well-typed tree ill typed.
-/

namespace MiniMl

/-- The symbol is a function that takes these arguments, and the cell is that of its result. -/
def Store.Calls (s : Store) (x : Symbol) (args : List Cell) (cell : Cell) : Prop :=
  ∃ f, x.signature? = some f ∧ s.Passes f args ∧ cell = f.result

/-- The symbol is a function with these parameters, and its result agrees with the body. -/
def Store.Defines (s : Store) (x : Symbol) (params : List Symbol) (body : Cell) : Prop :=
  ∃ f, x.signature? = some f ∧ f.params = params.map Symbol.cell ∧ s.Agree f.result body

mutual

def Term.WellTyped (s : Store) : Term → Prop
  | .binary op lhs rhs cell =>
    lhs.WellTyped s ∧ rhs.WellTyped s ∧ s.Binary op.kind lhs.cell rhs.cell cell
  | .unary _ operand cell => operand.WellTyped s ∧ s.Unary operand.cell cell
  | .pair _ first second cell =>
    first.WellTyped s ∧ second.WellTyped s ∧ s.kind? cell = some .pair
  | .projection _ _ first second => first.WellTyped s ∧ second.WellTyped s
  | .sequence _ first second => first.WellTyped s ∧ second.WellTyped s
  | .var _ => True
  | .constant _ value cell => s.kind? cell = some value.kind
  | .conditional _ condition first second cell =>
    condition.WellTyped s ∧ first.WellTyped s ∧ Exp.optionWellTyped s second ∧
      s.kind? condition.cell = some .bool ∧ cell = first.cell ∧
      second.elim (s.Known first.cell) fun e => s.Agree first.cell e.cell
  | .loop _ condition body cell =>
    condition.WellTyped s ∧ body.WellTyped s ∧
      s.kind? condition.cell = some .bool ∧ cell = body.cell ∧ s.Known body.cell
  | .letIn _ bindings body _ => Binding.listWellTyped s bindings ∧ body.WellTyped s
  | .call callee args cell =>
    Exp.listWellTyped s args ∧ s.Calls callee.symbol (args.map Exp.cell) cell
  | .paren _ inner => inner.WellTyped s

def Exp.WellTyped (s : Store) : Exp → Prop
  | .apply head args cell _ =>
    Term.listWellTyped s args ∧ s.Calls head.symbol (args.map Term.cell) cell
  | .single _ item _ => item.WellTyped s

def Binding.WellTyped (s : Store) : Binding → Prop
  | .value symbol body => body.WellTyped s ∧ symbol.cell = body.cell
  | .function symbol params body _ _ => body.WellTyped s ∧ s.Defines symbol params body.cell

def Term.listWellTyped (s : Store) : List Term → Prop
  | [] => True
  | t :: ts => t.WellTyped s ∧ Term.listWellTyped s ts

def Exp.listWellTyped (s : Store) : List Exp → Prop
  | [] => True
  | e :: es => e.WellTyped s ∧ Exp.listWellTyped s es

def Exp.optionWellTyped (s : Store) : Option Exp → Prop
  | none => True
  | some e => e.WellTyped s

def Binding.listWellTyped (s : Store) : List Binding → Prop
  | [] => True
  | b :: bs => b.WellTyped s ∧ Binding.listWellTyped s bs

end

def StmtKind.WellTyped (s : Store) : StmtKind → Prop
  | .var _ => True
  | .define b => b.WellTyped s
  | .exp e => e.WellTyped s

/-- All cells are read in the store that the whole program leaves. -/
def Program.WellTyped (p : Program) : Prop := ∀ stmt ∈ p.stmts, stmt.kind.WellTyped p.store

variable {s t : Store}

theorem Store.Calls.later {x : Symbol} {args : List Cell} {c : Cell} (h : s.Calls x args c)
    (he : s.Evolves t) : t.Calls x args c := by
  obtain ⟨f, hf, hp, hc⟩ := h
  exact ⟨f, hf, hp.later he, hc⟩

theorem Store.Defines.later {x : Symbol} {params : List Symbol} {c : Cell}
    (h : s.Defines x params c) (he : s.Evolves t) : t.Defines x params c := by
  obtain ⟨f, hf, hp, ha⟩ := h
  exact ⟨f, hf, hp, ha.later he⟩

mutual

theorem Term.wellTyped_later (he : s.Evolves t) : ∀ x : Term, x.WellTyped s → x.WellTyped t
  | .binary _ lhs rhs _, ⟨hl, hr, h⟩ =>
    ⟨lhs.wellTyped_later he hl, rhs.wellTyped_later he hr, h.later he⟩
  | .unary _ operand _, ⟨ho, h⟩ => ⟨operand.wellTyped_later he ho, h.later he⟩
  | .pair _ first second _, ⟨hf, hs, h⟩ =>
    ⟨first.wellTyped_later he hf, second.wellTyped_later he hs, he.kind h⟩
  | .projection _ _ first second, ⟨hf, hs⟩ =>
    ⟨first.wellTyped_later he hf, second.wellTyped_later he hs⟩
  | .sequence _ first second, ⟨hf, hs⟩ =>
    ⟨first.wellTyped_later he hf, second.wellTyped_later he hs⟩
  | .var _, _ => trivial
  | .constant _ _ _, h => he.kind h
  | .conditional _ condition first none _, ⟨hc, hf, _, hk, h, h'⟩ =>
    ⟨condition.wellTyped_later he hc, first.wellTyped_later he hf, trivial, he.kind hk, h,
      Store.Known.later h' he⟩
  | .conditional _ condition first (some second) _, ⟨hc, hf, hs, hk, h, h'⟩ =>
    ⟨condition.wellTyped_later he hc, first.wellTyped_later he hf, second.wellTyped_later he hs,
      he.kind hk, h, Store.Agree.later h' he⟩
  | .loop _ condition body _, ⟨hc, hb, hk, h, h'⟩ =>
    ⟨condition.wellTyped_later he hc, body.wellTyped_later he hb, he.kind hk, h, h'.later he⟩
  | .letIn _ bindings body _, ⟨hb, h⟩ =>
    ⟨Binding.listWellTyped_later he bindings hb, body.wellTyped_later he h⟩
  | .call _ args _, ⟨ha, h⟩ => ⟨Exp.listWellTyped_later he args ha, h.later he⟩
  | .paren _ inner, h => inner.wellTyped_later he h

theorem Exp.wellTyped_later (he : s.Evolves t) : ∀ e : Exp, e.WellTyped s → e.WellTyped t
  | .apply _ args _ _, ⟨ha, h⟩ => ⟨Term.listWellTyped_later he args ha, h.later he⟩
  | .single _ item _, h => item.wellTyped_later he h

theorem Binding.wellTyped_later (he : s.Evolves t) : ∀ b : Binding, b.WellTyped s → b.WellTyped t
  | .value _ body, ⟨hb, h⟩ => ⟨body.wellTyped_later he hb, h⟩
  | .function _ _ body _ _, ⟨hb, h⟩ => ⟨body.wellTyped_later he hb, h.later he⟩

theorem Term.listWellTyped_later (he : s.Evolves t) :
    ∀ ts : List Term, Term.listWellTyped s ts → Term.listWellTyped t ts
  | [], _ => trivial
  | x :: xs, ⟨hx, hxs⟩ => ⟨x.wellTyped_later he hx, Term.listWellTyped_later he xs hxs⟩

theorem Exp.listWellTyped_later (he : s.Evolves t) :
    ∀ es : List Exp, Exp.listWellTyped s es → Exp.listWellTyped t es
  | [], _ => trivial
  | e :: es, ⟨h, hes⟩ => ⟨e.wellTyped_later he h, Exp.listWellTyped_later he es hes⟩

theorem Binding.listWellTyped_later (he : s.Evolves t) :
    ∀ bs : List Binding, Binding.listWellTyped s bs → Binding.listWellTyped t bs
  | [], _ => trivial
  | b :: bs, ⟨h, hbs⟩ => ⟨b.wellTyped_later he h, Binding.listWellTyped_later he bs hbs⟩

end

theorem StmtKind.wellTyped_later (he : s.Evolves t) (k : StmtKind) (h : k.WellTyped s) :
    k.WellTyped t := by
  cases k with
  | var use => exact trivial
  | define b => exact b.wellTyped_later he h
  | exp e => exact e.wellTyped_later he h

theorem Term.listWellTyped_iff (ts : List Term) :
    Term.listWellTyped s ts ↔ ∀ x ∈ ts, x.WellTyped s := by
  induction ts with
  | nil => simp [Term.listWellTyped]
  | cons x ts ih => rw [Term.listWellTyped, ih, List.forall_mem_cons]

theorem Exp.listWellTyped_iff (es : List Exp) :
    Exp.listWellTyped s es ↔ ∀ e ∈ es, e.WellTyped s := by
  induction es with
  | nil => simp [Exp.listWellTyped]
  | cons e es ih => rw [Exp.listWellTyped, ih, List.forall_mem_cons]

theorem Binding.listWellTyped_iff (bs : List Binding) :
    Binding.listWellTyped s bs ↔ ∀ b ∈ bs, b.WellTyped s := by
  induction bs with
  | nil => simp [Binding.listWellTyped]
  | cons b bs ih => rw [Binding.listWellTyped, ih, List.forall_mem_cons]

end MiniMl
