import MiniMl.Typing.Rules

/-! # Where typing errors are reported

A typing rule reports an error at one of the locations that it is given. The store holds none.
-/

namespace MiniMl

structure Diagnostic.IsAt (L : Location → Prop) (d : Diagnostic) : Prop where
  location : L d.location
  category : d.problem.category ≠ .lexical

namespace Typing

variable {α : Type} {s t : Store} {x : Typed} {kind : Kind} {d : Diagnostic}

@[simp] theorem get_bind (f : Store → Typing α) (s : Store) : (get >>= f) s = f s s := rfl

theorem expect_mismatch (h : expect x kind s = .error d t) :
    ∃ expected found, d = ⟨.typeMismatch expected found, x.location⟩ := by
  change (if s.kind? x.cell = some kind then (pure () : Typing Unit) else throw _) s = _ at h
  split at h
  · cases h
  · cases h
    exact ⟨_, _, rfl⟩

theorem expectOrInfer_mismatch (h : expectOrInfer x kind s = .error d t) :
    ∃ expected found, d = ⟨.typeMismatch expected found, x.location⟩ := by
  simp only [expectOrInfer, get_bind] at h
  cases hk : s.kind? x.cell with
  | none =>
    rw [hk] at h
    cases h
  | some known =>
    rw [hk] at h
    exact expect_mismatch h

theorem unify_mismatch {a b : Cell} {location : Location}
    (h : unify a b location s = .error d t) :
    ∃ expected found, d = ⟨.typeMismatch expected found, location⟩ := by
  simp only [unify, get_bind] at h
  cases ha : s.kind? a with
  | none =>
    cases hb : s.kind? b with
    | none =>
      rw [ha, hb] at h
      cases h
    | some kind =>
      rw [ha, hb] at h
      exact expectOrInfer_mismatch h
  | some kind =>
    cases hb : s.kind? b with
    | none =>
      rw [ha, hb] at h
      exact expectOrInfer_mismatch h
    | some other =>
      rw [ha, hb] at h
      exact expect_mismatch h

theorem unifyArguments_mismatch {params : List Cell} {args : List Typed}
    (h : unifyArguments params args s = .error d t) :
    ∃ x ∈ args, ∃ expected found, d = ⟨.typeMismatch expected found, x.location⟩ := by
  induction params generalizing args s with
  | nil => cases h
  | cons param params ih =>
    cases args with
    | nil => cases h
    | cons arg args =>
      change EStateM.bind (unify param arg.cell arg.location)
        (fun _ => unifyArguments params args) s = _ at h
      unfold EStateM.bind at h
      cases hunify : unify param arg.cell arg.location s with
      | error e u =>
        rw [hunify] at h
        cases h
        exact ⟨arg, List.mem_cons_self, unify_mismatch hunify⟩
      | ok a u =>
        rw [hunify] at h
        obtain ⟨x, hx, hd⟩ := ih h
        exact ⟨x, List.mem_cons_of_mem arg hx, hd⟩

theorem call_cases (name : Token) (f : Signature) (args : List Typed) (s : Store) :
    (∃ t, call name f args s = .ok f.result t) ∨
    ∃ d t, call name f args s = .error d t ∧
      (args.length ≠ f.arity ∧
          d = ⟨.arityMismatch name.value f.arity args.length, name.location⟩ ∨
        args.length = f.arity ∧
          ∃ x ∈ args, ∃ expected found, d = ⟨.typeMismatch expected found, x.location⟩) := by
  unfold call
  by_cases harity : args.length = f.arity
  · rw [if_neg fun hne => hne harity]
    change (∃ t, EStateM.bind (unifyArguments f.params args) (fun _ => pure f.result) s = _) ∨
      ∃ d t, EStateM.bind (unifyArguments f.params args) (fun _ => pure f.result) s = _ ∧ _
    unfold EStateM.bind
    cases hargs : unifyArguments f.params args s with
    | ok a t => exact .inl ⟨t, rfl⟩
    | error d t => exact .inr ⟨d, t, rfl, .inr ⟨harity, unifyArguments_mismatch hargs⟩⟩
  · rw [if_pos harity]
    exact .inr ⟨_, s, rfl, .inl ⟨harity, rfl⟩⟩

/-- Every error of the rule is reported at a location with the property. -/
def Locates (L : Location → Prop) (rule : Typing α) : Prop :=
  ∀ ⦃s d t⦄, rule s = .error d t → d.IsAt L

end Typing

namespace Typing.Locates

variable {L : Location → Prop} {α β : Type} {x lhs rhs : Typed} {kind : Kind}

theorem pure (a : α) : Locates L (pure a) := fun _ _ _ h => by cases h

theorem get : Locates L (get : Typing Store) := fun _ _ _ h => by cases h

theorem new (slot : Slot) : Locates L (new slot) := fun _ _ _ h => by cases h

theorem throw {d : Diagnostic} (hd : d.IsAt L) : Locates L (throw d : Typing α) := by
  intro s e t h
  cases h
  exact hd

theorem seq {rule : Typing α} {next : α → Typing β} (hrule : Locates L rule)
    (hnext : ∀ a, Locates L (next a)) : Locates L (rule >>= next) := by
  intro s d t h
  change EStateM.bind rule next s = _ at h
  unfold EStateM.bind at h
  cases hrun : rule s with
  | ok a u =>
    rw [hrun] at h
    exact hnext a h
  | error e u =>
    rw [hrun] at h
    cases h
    exact hrule hrun

theorem mismatch {rule : Typing α} {location : Location} (hlocation : L location)
    (hrule : ∀ ⦃s d t⦄, rule s = .error d t →
      ∃ expected found, d = ⟨.typeMismatch expected found, location⟩) : Locates L rule := by
  intro s d t h
  obtain ⟨expected, found, rfl⟩ := hrule h
  exact ⟨hlocation, nofun⟩

theorem expectOrInfer (hx : L x.location) : Locates L (expectOrInfer x kind) :=
  mismatch hx fun _ _ _ => expectOrInfer_mismatch

theorem unexpect (hx : L x.location) : Locates L (unexpect x : Typing α) :=
  get.seq fun _ => throw ⟨hx, nofun⟩

theorem unify (a b : Cell) {location : Location} (hlocation : L location) :
    Locates L (unify a b location) :=
  mismatch hlocation fun _ _ _ => unify_mismatch

theorem operandKind (allowed : List Kind) (hlhs : L lhs.location) (hrhs : L rhs.location) :
    Locates L (operandKind allowed lhs rhs) := by
  have hagreed : ∀ kind, Locates L (do
      Typing.expectOrInfer lhs kind
      Typing.expectOrInfer rhs kind
      Pure.pure kind) := fun kind =>
    (expectOrInfer hlhs).seq fun _ => (expectOrInfer hrhs).seq fun _ => pure kind
  refine get.seq fun s => ?_
  cases s.kind? lhs.cell with
  | some kind =>
    dsimp only
    split
    · exact (pure kind).seq hagreed
    · exact (unexpect hlhs).seq hagreed
  | none =>
    cases s.kind? rhs.cell with
    | some kind =>
      dsimp only
      split
      · exact (pure kind).seq hagreed
      · exact (unexpect hrhs).seq hagreed
    | none => exact (pure .int).seq hagreed

theorem binary {op : Token} (hop : L op.location) (hlhs : L lhs.location)
    (hrhs : L rhs.location) : Locates L (binary op lhs rhs) := by
  have harithmetic : Locates L (arithmetic lhs rhs) :=
    (operandKind _ hlhs hrhs).seq fun _ => new _
  have hrelational : Locates L (relational lhs rhs) :=
    (operandKind _ hlhs hrhs).seq fun _ => new _
  have hlogical : Locates L (logical lhs rhs) :=
    (expectOrInfer hlhs).seq fun _ => (expectOrInfer hrhs).seq fun _ => new _
  unfold Typing.binary
  cases op.kind with
  | plus | dash | star | slash => exact harithmetic
  | less | lessEquals | greater | greaterEquals | equals | notEquals => exact hrelational
  | logicalAnd | logicalOr => exact hlogical
  | _ => exact throw ⟨hop, nofun⟩

theorem unary (hx : L x.location) : Locates L (unary x) := by
  have hkind : ∀ kind, Locates L (do
      Typing.expectOrInfer x kind
      Typing.new (.known kind)) := fun kind => (expectOrInfer hx).seq fun _ => new _
  refine get.seq fun s => ?_
  cases s.kind? x.cell with
  | none => exact (pure .int).seq hkind
  | some kind =>
    dsimp only
    split
    · exact (pure kind).seq hkind
    · exact (unexpect hx).seq hkind

theorem defaultToUnit (hx : L x.location) : Locates L (defaultToUnit x) := by
  refine get.seq fun s => ?_
  split
  · exact expectOrInfer hx
  · exact pure ()

theorem conditional {condition first : Typed} {second : Option Typed}
    (hcondition : L condition.location) (hfirst : L first.location)
    (hsecond : ∀ x ∈ second, L x.location) : Locates L (conditional condition first second) := by
  refine (expectOrInfer hcondition).seq fun _ => ?_
  cases second with
  | none => exact (defaultToUnit hfirst).seq fun _ => pure _
  | some second => exact (unify _ _ (hsecond second rfl)).seq fun _ => pure _

theorem loop {condition body : Typed} (hcondition : L condition.location)
    (hbody : L body.location) : Locates L (loop condition body) :=
  (expectOrInfer hcondition).seq fun _ => (defaultToUnit hbody).seq fun _ => pure _

theorem call {name : Token} (f : Signature) {args : List Typed} (hname : L name.location)
    (hargs : ∀ x ∈ args, L x.location) : Locates L (call name f args) := by
  intro s d t h
  rcases call_cases name f args s with ⟨u, hok⟩ | ⟨e, u, herror, hcases⟩
  · rw [hok] at h
    cases h
  · rw [herror] at h
    cases h
    rcases hcases with ⟨-, rfl⟩ | ⟨-, x, hx, expected, found, rfl⟩
    · exact ⟨hname, nofun⟩
    · exact ⟨hargs x hx, nofun⟩

theorem functionBody (f : Signature) (hx : L x.location) : Locates L (functionBody f x) :=
  unify _ _ hx

theorem newParams (n : Nat) : Locates L (Signature.newParams n) := by
  induction n with
  | zero => exact pure []
  | succ n ih => exact (new _).seq fun first => ih.seq fun others => pure _

theorem signature (arity : Nat) : Locates L (Signature.new arity) :=
  (newParams arity).seq fun _ => (new _).seq fun _ => pure _

end Typing.Locates

end MiniMl
