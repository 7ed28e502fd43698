import MiniMl.Parser.State
import MiniMl.Proofs.Scope.Arena
import MiniMl.Tree.Basic

/-! # What an expression leaves bound

The scope of a finished let, branch or loop is copied into the scope around it, so an expression
leaves names bound there. They are read off its tree here, as a partial map.
-/

namespace MiniMl

/-- What a scope binds, as a partial map. -/
abbrev Names := Key → Option Symbol

namespace Names

def empty : Names := fun _ => none

def behind (f g : Names) : Names := fun k => (f k).or (g k)

def set (f : Names) (key : Key) (x : Symbol) : Names := fun k => if k = key then some x else f k

@[simp] theorem empty_behind (f : Names) : empty.behind f = f := rfl

@[simp] theorem behind_empty (f : Names) : f.behind empty = f := by
  funext k
  exact Option.or_none

theorem behind_assoc (f g h : Names) : (f.behind g).behind h = f.behind (g.behind h) := by
  funext k
  exact Option.or_assoc

end Names

mutual

/-- What stays bound in the scope around an expression. The body of a function leaves nothing. -/
def Term.exports : Term → Names
  | .binary _ lhs rhs _ => lhs.exports.behind rhs.exports
  | .unary _ operand _ => operand.exports
  | .pair _ first second _ => first.exports.behind second.exports
  | .projection _ _ first second => first.exports.behind second.exports
  | .sequence _ first second => first.exports.behind second.exports
  | .var _ => .empty
  | .constant _ _ _ => .empty
  | .conditional _ condition first second _ =>
    (condition.exports.behind first.exports).behind (Exp.optionExports second)
  | .loop _ condition body _ => condition.exports.behind body.exports
  | .letIn _ bindings body _ => (Binding.listBinds bindings .empty).behind body.exports
  | .call _ args _ => Exp.listExports args
  | .paren _ inner => inner.exports

def Exp.exports : Exp → Names
  | .apply _ args _ _ => Term.listExports args
  | .single _ item _ => item.exports

/-- What a scope binds behind a binding in it. -/
def Binding.binds : Binding → Names → Names
  | .value x body, f => (f.behind body.exports).set (.ofName x.name) x
  | .function x _ _ _ _, f => (f.set (.ofName x.name) x).set (.tag x.name) x

def Term.listExports : List Term → Names
  | [] => .empty
  | t :: ts => t.exports.behind (Term.listExports ts)

def Exp.listExports : List Exp → Names
  | [] => .empty
  | e :: es => e.exports.behind (Exp.listExports es)

def Exp.optionExports : Option Exp → Names
  | none => .empty
  | some e => e.exports

def Binding.listBinds : List Binding → Names → Names
  | [], f => f
  | b :: bs, f => Binding.listBinds bs (b.binds f)

end

structure Scopes where
  arena : Arena
  scope : ScopeId
  symbols : Nat

abbrev Parser.scopes (p : Parser) : Scopes := ⟨p.arena, p.scope, p.symbols⟩

namespace Scopes

def initial : Scopes := ⟨(Arena.empty.create .file none).2, Parser.fileScope, 0⟩

def enter (v : Scopes) (kind : ScopeKind) : Scopes :=
  ⟨(v.arena.create kind (some v.scope)).2, v.arena.size, v.symbols⟩

def leave (v : Scopes) : Scopes :=
  ⟨v.arena, (v.arena.parent? v.scope).getD v.scope, v.symbols⟩

def absorb (v : Scopes) (source : ScopeId) : Scopes :=
  ⟨v.arena.append source v.scope, v.scope, v.symbols⟩

def bind (v : Scopes) (id : ScopeId) (key : Key) (x : Symbol) : Scopes :=
  ⟨v.arena.bind id key x, v.scope, v.symbols⟩

def numbered (v : Scopes) (n : Nat) : Scopes := ⟨v.arena, v.scope, v.symbols + n⟩

def here (v : Scopes) : Names := (v.arena.bindings v.scope).find?

/-- The states that come about when scopes are opened, closed and copied and symbols that were
made are bound. -/
inductive Reachable : Scopes → Prop where
  | initial : Reachable .initial
  | enter {v} (kind) : Reachable v → Reachable (v.enter kind)
  | leave {v} : Reachable v → Reachable v.leave
  | absorb {v} (source) : Reachable v → Reachable (v.absorb source)
  | numbered {v} (n) : Reachable v → Reachable (v.numbered n)
  | bind {v x} (id key) : Reachable v → x.id < v.symbols → Reachable (v.bind id key x)

/-- Scopes are younger than their parents, and all bound symbols were made before. -/
structure Formed (v : Scopes) : Prop where
  scope : v.scope < v.arena.size
  parents : ∀ id parent, v.arena.parent? id = some parent → parent < id
  made : v.arena.Holds fun x => x.id < v.symbols

theorem bind_size (v : Scopes) (id : ScopeId) (key : Key) (x : Symbol) :
    (v.bind id key x).arena.size = v.arena.size := Arena.size_setBindings _ _ _

theorem absorb_size (v : Scopes) (source : ScopeId) :
    (v.absorb source).arena.size = v.arena.size := by
  unfold absorb Arena.append
  split
  · rfl
  · exact Arena.size_setBindings _ _ _

theorem absorb_parent? (v : Scopes) (source id : ScopeId) :
    (v.absorb source).arena.parent? id = v.arena.parent? id := by
  unfold absorb Arena.append
  split
  · rfl
  · exact Arena.parent?_setBindings _ _ _ _

theorem absorb_kind? (v : Scopes) (source id : ScopeId) :
    (v.absorb source).arena.kind? id = v.arena.kind? id := by
  unfold absorb Arena.append
  split
  · rfl
  · exact Arena.kind?_setBindings _ _ _ _

theorem Reachable.formed {v : Scopes} (h : v.Reachable) : v.Formed := by
  induction h with
  | initial =>
    refine ⟨by decide, ?_, Arena.Holds.create (fun id k x hx => by cases hx) .file none⟩
    intro id parent hp
    rw [Scopes.initial, Arena.parent?_create] at hp
    split at hp
    · cases hp
    · cases hp
  | @enter v kind _ ih =>
    refine ⟨?_, ?_, ih.made.create kind (some v.scope)⟩
    · change v.arena.size < (v.arena.create kind (some v.scope)).2.size
      rw [Arena.size_create]
      exact Nat.lt_succ_self _
    · intro id parent hp
      rw [Scopes.enter, Arena.parent?_create] at hp
      split at hp
      · rename_i hid
        cases hp
        rw [hid]
        exact ih.scope
      · exact ih.parents id parent hp
  | @leave v _ ih =>
    refine ⟨?_, ih.parents, ih.made⟩
    have hs := ih.scope
    unfold Scopes.leave
    cases hp : v.arena.parent? v.scope with
    | none => exact hs
    | some parent =>
      have := ih.parents _ _ hp
      exact Nat.lt_trans this hs
  | @absorb v source _ ih =>
    refine ⟨?_, ?_, ih.made.append source v.scope⟩
    · rw [absorb_size]
      exact ih.scope
    · intro id parent hp
      rw [absorb_parent?] at hp
      exact ih.parents id parent hp
  | @numbered v n _ ih =>
    refine ⟨ih.scope, ih.parents, ih.made.imp ?_⟩
    intro x hx
    exact Nat.lt_add_right n hx
  | @bind v x id key _ hx ih =>
    refine ⟨?_, ?_, ih.made.bind id key hx⟩
    · rw [bind_size]
      exact ih.scope
    · intro j parent hp
      rw [Scopes.bind, Arena.bind, Arena.parent?_setBindings] at hp
      exact ih.parents j parent hp

/-- Nothing outside the current scope changes, other than that new scopes and symbols come. -/
structure Keeps (v w : Scopes) : Prop where
  scope : w.scope = v.scope
  size : v.arena.size ≤ w.arena.size
  symbols : v.symbols ≤ w.symbols
  parent : ∀ id, id < v.arena.size → w.arena.parent? id = v.arena.parent? id
  kind : ∀ id, id < v.arena.size → w.arena.kind? id = v.arena.kind? id
  others : ∀ id, id < v.arena.size → id ≠ v.scope → w.arena.bindings id = v.arena.bindings id

variable {u v w : Scopes}

theorem Keeps.refl (v : Scopes) : v.Keeps v :=
  ⟨rfl, Nat.le_refl _, Nat.le_refl _, fun _ _ => rfl, fun _ _ => rfl, fun _ _ _ => rfl⟩

theorem Keeps.trans (h : u.Keeps v) (h' : v.Keeps w) : u.Keeps w where
  scope := h'.scope.trans h.scope
  size := Nat.le_trans h.size h'.size
  symbols := Nat.le_trans h.symbols h'.symbols
  parent := fun id hid => (h'.parent id (Nat.lt_of_lt_of_le hid h.size)).trans (h.parent id hid)
  kind := fun id hid => (h'.kind id (Nat.lt_of_lt_of_le hid h.size)).trans (h.kind id hid)
  others := by
    intro id hid hne
    rw [h'.others id (Nat.lt_of_lt_of_le hid h.size) (h.scope ▸ hne), h.others id hid hne]

theorem Keeps.numbered (v : Scopes) (n : Nat) : v.Keeps (v.numbered n) :=
  ⟨rfl, Nat.le_refl _, Nat.le_add_right _ _, fun _ _ => rfl, fun _ _ => rfl, fun _ _ _ => rfl⟩

/-- What is seen from a scope that binds nothing itself. -/
def outer (v : Scopes) : Names := fun k =>
  if v.arena.kind? v.scope = some .file then none
  else (v.arena.parent? v.scope).bind fun parent => v.arena.resolve parent k

theorem Formed.resolve (hv : v.Formed) (k : Key) :
    v.arena.resolve v.scope k = v.here.behind v.outer k := by
  obtain ⟨n, hn⟩ := Nat.exists_eq_succ_of_ne_zero (Nat.ne_zero_of_lt hv.scope)
  have hs := hv.scope
  rw [Arena.resolve, hn, Arena.lookup_succ hv.scope]
  unfold Names.behind here outer
  congr 1
  split
  · rfl
  · cases hp : v.arena.parent? v.scope with
    | none => rfl
    | some parent =>
      have hlt := hv.parents _ _ hp
      have hsize := Nat.lt_trans hlt hs
      exact Arena.lookup_congr (fun j _ => ⟨rfl, rfl, rfl⟩) hv.parents hsize hsize
        (Nat.lt_of_lt_of_le hlt (Nat.le_of_lt_succ (hn ▸ hs))) hsize

theorem Keeps.outer (h : v.Keeps w) (hv : v.Formed) : w.outer = v.outer := by
  have hs := hv.scope
  have hsize := h.size
  funext k
  unfold Scopes.outer
  rw [h.scope, h.kind _ hs, h.parent _ hs]
  split
  · rfl
  · cases hp : v.arena.parent? v.scope with
    | none => rfl
    | some parent =>
      have hlt := hv.parents _ _ hp
      have hold := Nat.lt_trans hlt hs
      have hnew := Nat.lt_of_lt_of_le hold hsize
      refine Arena.lookup_congr ?_ hv.parents hold hnew hnew hold
      intro j hj
      have hj := Nat.lt_of_le_of_lt hj hlt
      have hjs := Nat.lt_trans hj hs
      exact ⟨h.others j hjs (Nat.ne_of_lt hj), h.kind j hjs, h.parent j hjs⟩

end Scopes

end MiniMl
