import MiniMl.Parser.Operators
import MiniMl.Tree.Basic

/-! # Trees of binary operators

Operators that bind more strongly stand lower in the tree, and equal ones group to the left. There
is only one such tree for a row of operators and operands, and splitting the row at the rightmost of
its weakest operators finds it.
-/

namespace MiniMl

/-- The binary operators, those that bind alike together and the weakest first. -/
def operatorLevels : List (List TokenKind) :=
  [[.logicalOr], [.logicalAnd],
    [.less, .lessEquals, .greater, .greaterEquals, .equals, .notEquals], [.plus, .dash],
    [.star, .slash]]

def Token.level (op : Token) : Nat := operatorLevels.findIdx (op.kind ∈ ·)

theorem Token.level_of_power {op : Token} {power : Power} (h : op.kind.power? = some power) :
    op.level = power.level := by
  unfold level
  generalize op.kind = kind at h
  cases kind
  all_goals cases h
  all_goals rfl

theorem Token.level_lt : operatorLevels.Pairwise fun weaker stronger =>
    ∀ a b : Token, a.kind ∈ weaker → b.kind ∈ stronger → a.level < b.level := by
  have hlevels : operatorLevels.Pairwise fun weaker stronger =>
      ∀ a ∈ weaker, ∀ b ∈ stronger,
        operatorLevels.findIdx (a ∈ ·) < operatorLevels.findIdx (b ∈ ·) := by decide +kernel
  exact hlevels.imp fun hlevel (a b : Token) ha hb => hlevel a.kind ha b.kind hb

theorem Token.level_eq : ∀ level ∈ operatorLevels, ∀ a b : Token, a.kind ∈ level → b.kind ∈ level →
    a.level = b.level := by
  have hlevels : ∀ level ∈ operatorLevels, ∀ a ∈ level, ∀ b ∈ level,
      operatorLevels.findIdx (a ∈ ·) = operatorLevels.findIdx (b ∈ ·) := by decide +kernel
  exact fun level hlevel a b ha hb => hlevels level hlevel a.kind ha b.kind hb

theorem TokenKind.power?_isSome {kind : TokenKind} :
    kind.power?.isSome ↔ kind ∈ operatorLevels.flatten := by
  cases kind
  all_goals decide

theorem TokenKind.mem_levels {kind : TokenKind} {power : Power} (h : kind.power? = some power) :
    kind ∈ operatorLevels.flatten :=
  power?_isSome.mp (Option.isSome_of_eq_some h)

theorem TokenKind.power?_of_mem_levels {kind : TokenKind} (h : kind ∈ operatorLevels.flatten) :
    ∃ power, kind.power? = some power :=
  Option.isSome_iff_exists.mp (power?_isSome.mpr h)

abbrev OperatorRow := List (Token × Term)

/-- The binary operators of an expression down to the operands between them. -/
inductive OperatorTree where
  | operand (t : Term)
  | node (op : Token) (lhs rhs : OperatorTree)

namespace OperatorTree

def first : OperatorTree → Term
  | operand t => t
  | node _ lhs _ => lhs.first

/-- What follows the first operand, from left to right. -/
def row : OperatorTree → OperatorRow
  | operand _ => []
  | node op lhs rhs => lhs.row ++ (op, rhs.first) :: rhs.row

def outline : OperatorTree → String
  | operand _ => "_"
  | node op lhs rhs => "(" ++ lhs.outline ++ " " ++ op.value ++ " " ++ rhs.outline ++ ")"

def root? : OperatorTree → Option Token
  | operand _ => none
  | node op _ _ => some op

/-- An operator on the left binds at least as strongly as the one above it, and an operator on the
right more strongly. -/
def Grouped : OperatorTree → Prop
  | operand _ => True
  | node op lhs rhs =>
    lhs.Grouped ∧ rhs.Grouped ∧ (∀ o ∈ lhs.root?, op.level ≤ o.level) ∧
      ∀ o ∈ rhs.root?, op.level < o.level

/-- The rightmost of the weakest operators, between what stands on its left and on its right. -/
def splitWeakest : OperatorRow → Option (OperatorRow × (Token × Term) × OperatorRow)
  | [] => none
  | e :: es =>
    match splitWeakest es with
    | none => some ([], e, [])
    | some (left, weakest, right) =>
      if weakest.1.level ≤ e.1.level then some (e :: left, weakest, right) else some ([], e, es)

theorem splitWeakest_eq_none {es : OperatorRow} (h : splitWeakest es = none) : es = [] := by
  cases es with
  | nil => rfl
  | cons e es =>
    unfold splitWeakest at h
    split at h
    · cases h
    · split at h <;> cases h

theorem append_of_splitWeakest {es left right : OperatorRow} {e : Token × Term}
    (h : splitWeakest es = some (left, e, right)) : es = left ++ e :: right := by
  induction es generalizing left with
  | nil => cases h
  | cons f es ih =>
    unfold splitWeakest at h
    split at h
    · rename_i hnone
      cases h
      rw [splitWeakest_eq_none hnone]
      rfl
    · rename_i left' e' right' hsome
      split at h
      · cases h
        rw [ih hsome]
        rfl
      · cases h
        rfl

theorem splitWeakest_of_weakest {left right : OperatorRow} {e : Token × Term}
    (hleft : ∀ f ∈ left, e.1.level ≤ f.1.level) (hright : ∀ f ∈ right, e.1.level < f.1.level) :
    splitWeakest (left ++ e :: right) = some (left, e, right) := by
  induction left with
  | nil =>
    rw [List.nil_append, splitWeakest]
    split
    · rename_i hnone
      rw [splitWeakest_eq_none hnone]
    · rename_i left' f right' hsome
      have hf : f ∈ right := by
        rw [append_of_splitWeakest hsome]
        exact List.mem_append_right _ List.mem_cons_self
      rw [if_neg (Nat.not_le.mpr (hright f hf))]
  | cons f left ih =>
    obtain ⟨hf, hleft⟩ := List.forall_mem_cons.mp hleft
    rw [List.cons_append, splitWeakest, ih hleft]
    exact if_pos hf

/-- The tree that is split at the rightmost of its weakest operators. -/
def ofRow (first : Term) (row : OperatorRow) : OperatorTree :=
  match _h : splitWeakest row with
  | none => operand first
  | some (left, e, right) => node e.1 (ofRow first left) (ofRow e.2 right)
termination_by row.length
decreasing_by
  all_goals
    rw [append_of_splitWeakest _h, List.length_append, List.length_cons]
    omega

theorem ofRow_nil (first : Term) : ofRow first [] = operand first := by
  rw [ofRow]
  rfl

theorem ofRow_of_split {first : Term} {row left right : OperatorRow} {e : Token × Term}
    (h : splitWeakest row = some (left, e, right)) :
    ofRow first row = node e.1 (ofRow first left) (ofRow e.2 right) := by
  rw [ofRow]
  split
  · rename_i hnone
    rw [hnone] at h
    cases h
  · rename_i left' e' right' hsome
    rw [hsome] at h
    cases h
    rfl

theorem Grouped.le_level {t : OperatorTree} {n : Nat} (h : t.Grouped)
    (hroot : ∀ o ∈ t.root?, n ≤ o.level) : ∀ e ∈ t.row, n ≤ e.1.level := by
  induction t generalizing n with
  | operand t =>
    intro e he
    cases he
  | node op lhs rhs ihl ihr =>
    obtain ⟨hl, hr, hlop, hrop⟩ := h
    have hop : n ≤ op.level := hroot op rfl
    intro e he
    rw [row] at he
    rcases List.mem_append.mp he with he | he
    · have hn : ∀ o ∈ lhs.root?, n ≤ o.level := fun o ho => Nat.le_trans hop (hlop o ho)
      exact ihl hl hn e he
    · rcases List.mem_cons.mp he with rfl | he
      · exact hop
      · have hn : ∀ o ∈ rhs.root?, n ≤ o.level :=
          fun o ho => Nat.le_trans hop (Nat.le_of_lt (hrop o ho))
        exact ihr hr hn e he

theorem Grouped.ofRow_eq {t : OperatorTree} (h : t.Grouped) : ofRow t.first t.row = t := by
  induction t with
  | operand t => exact ofRow_nil t
  | node op lhs rhs ihl ihr =>
    obtain ⟨hl, hr, hlop, hrop⟩ := h
    have hleft : ∀ e ∈ lhs.row, op.level ≤ e.1.level := hl.le_level hlop
    have hright : ∀ e ∈ rhs.row, op.level < e.1.level := hr.le_level hrop
    have hsplit := splitWeakest_of_weakest (e := (op, rhs.first)) hleft hright
    rw [row, first, ofRow_of_split hsplit, ihl hl, ihr hr]

theorem Grouped.unique {s t : OperatorTree} (hs : s.Grouped) (ht : t.Grouped)
    (hfirst : s.first = t.first) (hrow : s.row = t.row) : s = t := by
  rw [← hs.ofRow_eq, ← ht.ofRow_eq, hfirst, hrow]

end OperatorTree

namespace Term

def operatorTree : Term → OperatorTree
  | binary op lhs rhs _ => .node op lhs.operatorTree rhs.operatorTree
  | t => .operand t

def operator? : Term → Option Token
  | binary op _ _ _ => some op
  | _ => none

def isSequence : Term → Bool
  | sequence _ _ _ => true
  | _ => false

/-- The term can be an operand as it stands, without parentheses. -/
structure IsOperand (t : Term) : Prop where
  noOperator : t.operator? = none
  noSequence : t.isSequence = false

theorem IsOperand.operatorTree {t : Term} (h : t.IsOperand) : t.operatorTree = .operand t := by
  cases t with
  | binary op lhs rhs cell => cases h.noOperator
  | _ => rfl

theorem operatorTree_root? (t : Term) : t.operatorTree.root? = t.operator? := by
  cases t <;> rfl

end Term

structure Groups (op : Token) (lhs rhs : Term) : Prop where
  operator : op.kind ∈ operatorLevels.flatten
  left : ∀ o ∈ lhs.operator?, op.level ≤ o.level
  right : ∀ o ∈ rhs.operator?, op.level < o.level
  noSequenceLeft : lhs.isSequence = false
  noSequenceRight : rhs.isSequence = false

mutual

/-- All operators of the tree, at any depth, are grouped by how strongly they bind. -/
def Term.Grouped : Term → Prop
  | .binary op lhs rhs _ => lhs.Grouped ∧ rhs.Grouped ∧ Groups op lhs rhs
  | .unary _ operand _ => operand.Grouped ∧ operand.IsOperand
  | .pair _ first second _ => first.Grouped ∧ second.Grouped
  | .projection _ _ first second => first.Grouped ∧ second.Grouped
  | .sequence _ first second => first.Grouped ∧ second.Grouped
  | .var _ => True
  | .constant _ _ _ => True
  | .conditional _ condition first second _ =>
    condition.Grouped ∧ first.Grouped ∧ Exp.optionGrouped second
  | .loop _ condition body _ => condition.Grouped ∧ body.Grouped
  | .letIn _ bindings body _ => Binding.listGrouped bindings ∧ body.Grouped
  | .call _ args _ => Exp.listGrouped args
  | .paren _ inner => inner.Grouped

def Exp.Grouped : Exp → Prop
  | .apply _ args _ _ => Term.listGrouped args
  | .single _ item _ => item.Grouped

def Binding.Grouped : Binding → Prop
  | .value _ body => body.Grouped
  | .function _ _ body _ _ => body.Grouped

def Term.listGrouped : List Term → Prop
  | [] => True
  | t :: ts => t.Grouped ∧ Term.listGrouped ts

def Exp.listGrouped : List Exp → Prop
  | [] => True
  | e :: es => e.Grouped ∧ Exp.listGrouped es

def Exp.optionGrouped : Option Exp → Prop
  | none => True
  | some e => e.Grouped

def Binding.listGrouped : List Binding → Prop
  | [] => True
  | b :: bs => b.Grouped ∧ Binding.listGrouped bs

end

theorem Term.Grouped.operatorTree : ∀ {t : Term}, t.Grouped → t.operatorTree.Grouped
  | .binary _ _ _ _, h => by
    obtain ⟨hl, hr, h⟩ := h
    refine ⟨Term.Grouped.operatorTree hl, Term.Grouped.operatorTree hr, ?_, ?_⟩
    · rw [Term.operatorTree_root?]
      exact h.left
    · rw [Term.operatorTree_root?]
      exact h.right
  | .unary _ _ _, _ | .pair _ _ _ _, _ | .projection _ _ _ _, _ | .sequence _ _ _, _ | .var _, _
  | .constant _ _ _, _ | .conditional _ _ _ _ _, _ | .loop _ _ _ _, _ | .letIn _ _ _ _, _
  | .call _ _ _, _ | .paren _ _, _ => trivial

theorem Term.listGrouped_iff (ts : List Term) : Term.listGrouped ts ↔ ∀ t ∈ ts, t.Grouped := by
  induction ts with
  | nil => simp [Term.listGrouped]
  | cons t ts ih => rw [Term.listGrouped, ih, List.forall_mem_cons]

theorem Exp.listGrouped_iff (es : List Exp) : Exp.listGrouped es ↔ ∀ e ∈ es, e.Grouped := by
  induction es with
  | nil => simp [Exp.listGrouped]
  | cons e es ih => rw [Exp.listGrouped, ih, List.forall_mem_cons]

theorem Binding.listGrouped_iff (bs : List Binding) :
    Binding.listGrouped bs ↔ ∀ b ∈ bs, b.Grouped := by
  induction bs with
  | nil => simp [Binding.listGrouped]
  | cons b bs ih => rw [Binding.listGrouped, ih, List.forall_mem_cons]

end MiniMl
