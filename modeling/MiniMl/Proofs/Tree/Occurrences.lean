import MiniMl.Proofs.Tree.Written

/-! # Occurrences of names

Where names are bound and used in a tree, in the order of the source. Each occurrence knows the
constructs around it that restrict what may be used there.
-/

namespace MiniMl

/-- A part of the source that some symbols may not be used in. -/
inductive Enclosure where
  | value (symbol : Symbol)
  | body (function : Symbol) (isRec : Bool)
  /-- The else branch behind a then branch that binds these symbols. -/
  | otherwise (first : List Symbol)

def Enclosure.hides : Enclosure → List Symbol
  | value x => [x]
  | body f isRec => if isRec then [] else [f]
  | otherwise first => first

/-- What a name stands for where it occurs: something that it binds, or a use. -/
inductive Role where
  | value
  | function
  | parameter (function : Symbol)
  | reference
  | callee
deriving DecidableEq

def Role.binds : Role → Bool
  | value | function | parameter _ => true
  | reference | callee => false

structure Occurrence where
  role : Role
  token : Token
  symbol : Symbol
  within : List Enclosure

namespace Occurrence

def binds (o : Occurrence) : Bool := o.role.binds

def ofUse (role : Role) (within : List Enclosure) (use : NameUse) : Occurrence :=
  ⟨role, use.token, use.symbol, within⟩

def ofBinder (role : Role) (within : List Enclosure) (x : Symbol) : Occurrence :=
  ⟨role, x.token, x, within⟩

end Occurrence

/-- The symbols that these occurrences bind. -/
def binders (os : List Occurrence) : List Symbol := (os.filter (·.binds)).map (·.symbol)

mutual

def Term.occurrences (within : List Enclosure) : Term → List Occurrence
  | .binary _ lhs rhs _ => lhs.occurrences within ++ rhs.occurrences within
  | .unary _ operand _ => operand.occurrences within
  | .pair _ first second _ => first.occurrences within ++ second.occurrences within
  | .projection _ _ first second => first.occurrences within ++ second.occurrences within
  | .sequence _ first second => first.occurrences within ++ second.occurrences within
  | .var use => [.ofUse .reference within use]
  | .constant _ _ _ => []
  | .conditional _ condition first second _ =>
    condition.occurrences within ++ (first.occurrences within ++
      Exp.elseOccurrences (.otherwise (binders (first.occurrences within)) :: within) second)
  | .loop _ condition body _ => condition.occurrences within ++ body.occurrences within
  | .letIn _ bindings body _ =>
    Binding.listOccurrences within bindings ++ body.occurrences within
  | .call callee args _ => .ofUse .callee within callee :: Exp.listOccurrences within args
  | .paren _ inner => inner.occurrences within

def Exp.occurrences (within : List Enclosure) : Exp → List Occurrence
  | .apply head args _ _ => .ofUse .callee within head :: Term.listOccurrences within args
  | .single _ item _ => item.occurrences within

def Binding.occurrences (within : List Enclosure) : Binding → List Occurrence
  | .value x body => .ofBinder .value within x :: body.occurrences (.value x :: within)
  | .function f params body isRec _ =>
    .ofBinder .function within f :: (params.map (.ofBinder (.parameter f) within) ++
      body.occurrences (.body f isRec :: within))

def Exp.elseOccurrences (within : List Enclosure) : Option Exp → List Occurrence
  | none => []
  | some e => e.occurrences within

def Term.listOccurrences (within : List Enclosure) : List Term → List Occurrence
  | [] => []
  | t :: ts => t.occurrences within ++ Term.listOccurrences within ts

def Exp.listOccurrences (within : List Enclosure) : List Exp → List Occurrence
  | [] => []
  | e :: es => e.occurrences within ++ Exp.listOccurrences within es

def Binding.listOccurrences (within : List Enclosure) : List Binding → List Occurrence
  | [] => []
  | b :: bs => b.occurrences within ++ Binding.listOccurrences within bs

end

def Stmt.occurrences (s : Stmt) : List Occurrence :=
  match s.kind with
  | .var use => [.ofUse .reference [] use]
  | .define b => b.occurrences []
  | .exp e => e.occurrences []

def Program.occurrences (p : Program) : List Occurrence := p.stmts.flatMap Stmt.occurrences

theorem Binding.flatMap_occurrences (bs : List Binding) (token : Token) (block : ScopeId) :
    (bs.map fun b => (⟨.define b, token, block⟩ : Stmt)).flatMap Stmt.occurrences =
      Binding.listOccurrences [] bs := by
  induction bs with
  | nil => rfl
  | cons b bs ih =>
    rw [List.map_cons, List.flatMap_cons, ih]
    rfl

theorem binders_append (os ps : List Occurrence) :
    binders (os ++ ps) = binders os ++ binders ps := by
  simp [binders]

theorem mem_binders {os : List Occurrence} {x : Symbol} :
    x ∈ binders os ↔ ∃ o ∈ os, o.binds = true ∧ o.symbol = x := by
  simp [binders, and_assoc]

theorem binders_parameters (f : Symbol) (w : List Enclosure) (xs : List Symbol) :
    binders (xs.map (.ofBinder (.parameter f) w)) = xs := by
  simp [binders, Occurrence.binds, Occurrence.ofBinder, Role.binds, List.filter_map,
    Function.comp_def]

/-! The names of the source are the occurrences. -/

def identifiers (ts : List Token) : List Token := ts.filter (·.kind = .identifier)

namespace Written

/-- The identifiers are the same in all words of the language. -/
def Spells (l : Language Token) (names : List Token) : Prop := ∀ ts ∈ l, identifiers ts = names

variable {l m : Language Token} {names others : List Token}

theorem Spells.mul (h : Spells l names) (h' : Spells m others) :
    Spells (l * m) (names ++ others) := by
  intro ts hts
  obtain ⟨as, ha, bs, hb, rfl⟩ := Language.mem_mul.mp hts
  rw [identifiers, List.filter_append]
  exact congrArg₂ (· ++ ·) (h as ha) (h' bs hb)

theorem Spells.behind (h : Spells m names) (hl : Spells l []) : Spells (l * m) names := hl.mul h

theorem Spells.before (h : Spells l names) (hm : Spells m []) : Spells (l * m) names := by
  have hboth := h.mul hm
  rwa [List.append_nil] at hboth

theorem spells_one : Spells 1 [] := by
  intro ts hts
  rw [(Language.mem_one ts).mp hts]
  rfl

theorem spells_ofKind {kind : TokenKind} (hk : kind ≠ .identifier) : Spells (ofKind kind) [] := by
  rintro ts ⟨t, rfl, ht⟩
  simp [identifiers, ht, hk]

theorem spells_name (token : Token) : Spells (stored token (· = .identifier)) [token] := by
  rintro ts ⟨rfl, hk⟩
  simp [identifiers, hk]

theorem spells_stored {token : Token} {admitted : TokenKind → Prop}
    (hk : ¬ admitted .identifier) : Spells (stored token admitted) [] := by
  rintro ts ⟨rfl, ha⟩
  have hne : token.kind ≠ .identifier := by
    intro h
    exact hk (h ▸ ha)
  simp [identifiers, hne]

theorem spells_literal (token : Token) (value : Constant) : Spells (literal token value) [] := by
  rintro ts ⟨rfl, _, hk⟩
  have hne : token.kind ≠ .identifier := by
    intro h
    simp [h] at hk
  simp [identifiers, hne]

theorem Spells.startingWith (h : Spells l names) (token : Token) :
    Spells (startingWith token l) names := fun ts hts => h ts hts.1

theorem spells_recWord (bs : List Binding) : Spells (recWord bs) [] := by
  unfold recWord
  split
  · exact spells_ofKind (by decide)
  · split
    · rintro ts (hts | hts)
      · exact spells_one ts hts
      · exact spells_ofKind (by decide) ts hts
    · exact spells_one

inductive SpellsAll : List (Language Token) → List Token → Prop where
  | nil : SpellsAll [] []
  | cons {l ls names others} : Spells l names → SpellsAll ls others →
      SpellsAll (l :: ls) (names ++ others)

variable {ls : List (Language Token)}

theorem SpellsAll.prod (h : SpellsAll ls names) : Spells ls.prod names := by
  induction h with
  | nil => exact spells_one
  | cons hl _ ih =>
    rw [List.prod_cons]
    exact hl.mul ih

theorem SpellsAll.joined {separator : TokenKind} (hk : separator ≠ .identifier)
    (h : SpellsAll ls names) : Spells (joined separator ls) names := by
  induction h with
  | nil => exact spells_one
  | @cons l ls names others hl hls ih =>
    cases hls with
    | nil =>
      rw [List.append_nil]
      exact hl
    | cons =>
      have hrest := (hl.mul (spells_ofKind hk)).mul ih
      rwa [List.append_nil] at hrest

theorem SpellsAll.parenthesised (h : SpellsAll ls names) : Spells (parenthesised ls) names := by
  cases h with
  | nil => exact spells_ofKind (by decide)
  | cons hl hls =>
    exact (((SpellsAll.cons hl hls).joined (by decide)).behind (spells_ofKind (by decide))).before
      (spells_ofKind (by decide))

theorem spellsAll_names (xs : List Symbol) :
    SpellsAll (xs.map fun x => stored x.token (· = .identifier)) (xs.map (·.token)) := by
  induction xs with
  | nil => exact .nil
  | cons x xs ih => exact .cons (spells_name x.token) ih

end Written

open Written

def tokensOf (os : List Occurrence) : List Token := os.map (·.token)

theorem tokensOf_append (os ps : List Occurrence) :
    tokensOf (os ++ ps) = tokensOf os ++ tokensOf ps := List.map_append

mutual

theorem Term.written_spells (w : List Enclosure) :
    ∀ t : Term, Spells t.written (tokensOf (t.occurrences w))
  | .binary _ lhs rhs _ => by
    rw [Term.occurrences, tokensOf_append]
    exact ((lhs.written_spells w).before (spells_stored (by decide))).mul (rhs.written_spells w)
  | .unary _ operand _ => (operand.written_spells w).behind (spells_stored (by decide))
  | .pair _ first second _ => by
    rw [Term.occurrences, tokensOf_append]
    exact ((((first.written_spells w).behind (spells_stored (by decide))).before
      (spells_ofKind (by decide))).mul (second.written_spells w)).before (spells_ofKind (by decide))
  | .projection _ side first second => by
    rw [Term.occurrences, tokensOf_append]
    exact ((((first.written_spells w).behind ((spells_stored (by cases side <;> decide)).before
      (spells_ofKind (by decide)))).before (spells_ofKind (by decide))).mul
      (second.written_spells w)).before (spells_ofKind (by decide))
  | .sequence _ first second => by
    rw [Term.occurrences, tokensOf_append]
    exact ((first.written_spells w).before (spells_stored (by decide))).mul
      (second.written_spells w)
  | .var use => spells_name use.token
  | .constant token value _ => spells_literal token value
  | .conditional _ condition first second _ => by
    rw [Term.occurrences, tokensOf_append, tokensOf_append, ← List.append_assoc]
    exact ((((condition.written_spells w).behind (spells_stored (by decide))).before
      (spells_ofKind (by decide))).mul (first.written_spells w)).mul (Exp.else_spells _ second)
  | .loop _ condition body _ => by
    rw [Term.occurrences, tokensOf_append]
    exact ((((condition.written_spells w).behind (spells_stored (by decide))).before
      (spells_ofKind (by decide))).mul (body.written_spells w)).before (spells_ofKind (by decide))
  | .letIn _ bindings body _ => by
    rw [Term.occurrences, tokensOf_append]
    exact ((((Binding.list_spells w bindings).joined (by decide)).behind
      ((spells_stored (by decide)).before (spells_recWord bindings))).before
      (spells_ofKind (by decide))).mul (body.written_spells w)
  | .call callee args _ => (spells_name callee.token).mul (Exp.list_spells w args).parenthesised
  | .paren _ inner =>
    ((inner.written_spells w).behind (spells_stored (by decide))).before (spells_ofKind (by decide))

theorem Exp.written_spells (w : List Enclosure) :
    ∀ e : Exp, Spells e.written (tokensOf (e.occurrences w))
  | .apply head args _ _ => (spells_name head.token).mul (Term.list_spells w args).prod
  | .single root item _ => (item.written_spells w).startingWith root

theorem Binding.written_spells (w : List Enclosure) :
    ∀ b : Binding, Spells b.written (tokensOf (b.occurrences w))
  | .value x body =>
    ((spells_name x.token).before (spells_ofKind (by decide))).mul
      (body.written_spells (.value x :: w))
  | .function f params body isRec _ => by
    rw [Binding.occurrences, tokensOf, List.map_cons, List.map_append, List.map_map]
    exact (((spells_name f.token).mul (spellsAll_names params).parenthesised).before
      (spells_ofKind (by decide))).mul (body.written_spells (.body f isRec :: w))

theorem Exp.else_spells (w : List Enclosure) :
    ∀ e : Option Exp, Spells (Exp.elseWritten e) (tokensOf (Exp.elseOccurrences w e))
  | none => spells_one
  | some e => (e.written_spells w).behind (spells_ofKind (by decide))

theorem Term.list_spells (w : List Enclosure) :
    ∀ ts : List Term, SpellsAll (Term.listWritten ts) (tokensOf (Term.listOccurrences w ts))
  | [] => .nil
  | t :: ts => by
    rw [Term.listOccurrences, tokensOf_append]
    exact .cons (t.written_spells w) (Term.list_spells w ts)

theorem Exp.list_spells (w : List Enclosure) :
    ∀ es : List Exp, SpellsAll (Exp.listWritten es) (tokensOf (Exp.listOccurrences w es))
  | [] => .nil
  | e :: es => by
    rw [Exp.listOccurrences, tokensOf_append]
    exact .cons (e.written_spells w) (Exp.list_spells w es)

theorem Binding.list_spells (w : List Enclosure) :
    ∀ bs : List Binding,
      SpellsAll (Binding.listWritten bs) (tokensOf (Binding.listOccurrences w bs))
  | [] => .nil
  | b :: bs => by
    rw [Binding.listOccurrences, tokensOf_append]
    exact .cons (b.written_spells w) (Binding.list_spells w bs)

end

theorem StmtsWritten.identifiers {ss : List Stmt} {ts : List Token} (h : StmtsWritten ss ts) :
    identifiers ts = tokensOf (ss.flatMap Stmt.occurrences) := by
  cases h with
  | @var use block ts hts =>
    exact ((spells_name use.token).before (spells_ofKind (by decide))) ts hts
  | @exp e block ts hts =>
    have he := ((e.written_spells []).before (spells_ofKind (by decide))) ts hts
    rwa [List.flatMap_singleton]
  | @define token bs block ts _ hts =>
    rw [Binding.flatMap_occurrences]
    exact ((((Binding.list_spells [] bs).joined (by decide)).behind
      ((spells_stored (by decide)).before (spells_recWord bs))).before
      (spells_ofKind (by decide))) ts hts

end MiniMl
