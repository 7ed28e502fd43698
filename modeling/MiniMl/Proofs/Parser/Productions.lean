import MiniMl.Proofs.Parser.Runs

/-! # What the productions read

One statement for each production: which parts it read, in which states, and what it made of them.
Loops are chains without a bound.
-/

namespace MiniMl.Parse

variable {p q : Parser} {α : Type}

/-- Items with separators between them, read one after the other. -/
inductive Separated (separator : TokenKind) (item : Parse α) : Parser → List α → Parser → Prop where
  | last {p q x} : item p = .ok x q → Separated separator item p [x] q
  | cons {p q r x xs} : item p = .ok x r → r.peek.kind = separator →
      Separated separator item r.advance xs q → Separated separator item p (x :: xs) q

theorem separated_ok {separator : TokenKind} {item : Parse α} {n : Nat} {xs : List α}
    (h : separated separator item n p = .ok xs q) : Separated separator item p xs q := by
  induction n generalizing p xs with
  | zero =>
    obtain ⟨x, r, hx, h⟩ := bind_ok.mp h
    obtain ⟨rfl, rfl⟩ := pure_ok.mp h
    exact .last hx
  | succ n ih =>
    obtain ⟨x, r, hx, h⟩ := bind_ok.mp h
    rw [tryConsume_bind] at h
    split at h
    · rename_i hk
      obtain ⟨xs, r', hxs, h⟩ := bind_ok.mp h
      obtain ⟨rfl, rfl⟩ := pure_ok.mp h
      exact .cons hx hk (ih hxs)
    · obtain ⟨rfl, rfl⟩ := pure_ok.mp h
      exact .last hx

/-- Nothing between parentheses is one token; else there is at least one item. -/
inductive Parenthesised (item : Parse α) : Parser → List α → Parser → Prop where
  | unit {p : Parser} : p.peek.kind = .unit → Parenthesised item p [] p.advance
  | items {p q xs} : p.peek.kind = .openParen → Separated .comma item p.advance xs q →
      q.peek.kind = .closeParen → Parenthesised item p xs q.advance

theorem parenthesised_ok {item : Parse α} {xs : List α}
    (h : parenthesised item p = .ok xs q) : Parenthesised item p xs q := by
  rw [parenthesised, tryConsume_bind] at h
  split at h
  · rename_i hk
    obtain ⟨rfl, rfl⟩ := pure_ok.mp h
    exact .unit hk
  · obtain ⟨ho, h⟩ := expect_bind.mp h
    obtain ⟨ys, r, hys, h⟩ := bind_ok.mp h
    obtain ⟨hc, h⟩ := expect_bind.mp h
    obtain ⟨rfl, rfl⟩ := pure_ok.mp h
    exact .items ho (separated_ok hys) hc

section Expressions

variable {operand : Parse Term}

/-- The operators from the level `floor` on that follow a left operand, and what becomes of it. -/
inductive Climbs (operand : Parse Term) : Nat → Term → Parser → Term → Parser → Prop where
  | stop {floor lhs p} : Climbs operand floor lhs p lhs p
  | step {floor lhs p power first r rhs u cell s t q} : p.peek.kind.power? = some power →
      floor ≤ power.level → operand p.advance = .ok first r →
      Climbs operand (power.level + 1) first r rhs u →
      Typing.binary p.peek lhs.typed rhs.typed u.store = .ok cell s →
      Climbs operand floor (.binary p.peek lhs rhs cell) (u.withStore s) t q →
      Climbs operand floor lhs p t q

theorem climb_ok {n floor : Nat} {lhs t : Term} (h : climb operand n floor lhs p = .ok t q) :
    Climbs operand floor lhs p t q := by
  induction n generalizing floor lhs p t q with
  | zero =>
    obtain ⟨rfl, rfl⟩ := pure_ok.mp h
    exact .stop
  | succ n ih =>
    rw [climb, peekKind_bind] at h
    cases hp : p.peek.kind.power? with
    | none =>
      rw [hp] at h
      obtain ⟨rfl, rfl⟩ := pure_ok.mp h
      exact .stop
    | some power =>
      simp only [hp] at h
      split at h
      · obtain ⟨rfl, rfl⟩ := pure_ok.mp h
        exact .stop
      · rename_i hl
        rw [advance_bind] at h
        obtain ⟨first, r, hf, h⟩ := bind_ok.mp h
        obtain ⟨rhs, u, hr, h⟩ := bind_ok.mp h
        obtain ⟨cell, s, hc, h⟩ := typing_bind.mp h
        exact .step hp (Nat.not_lt.mp hl) hf (ih hr) hc (ih h)

theorem operators_ok {t : Term} (h : operators operand p = .ok t q) :
    ∃ first r, operand p = .ok first r ∧ Climbs operand 0 first r t q := by
  obtain ⟨first, r, hf, h⟩ := bind_ok.mp h
  exact ⟨first, r, hf, climb_ok h⟩

inductive Sequenced (operand : Parse Term) : Parser → Term → Parser → Prop where
  | last {p t q} : operators operand p = .ok t q → Sequenced operand p t q
  | cons {p first r second q} : operators operand p = .ok first r →
      r.peek.kind = .semicolon → Sequenced operand r.advance second q →
      Sequenced operand p (.sequence r.peek first second) q

theorem sequenceWithin_ok {n : Nat} {t : Term} (h : sequenceWithin operand n p = .ok t q) :
    Sequenced operand p t q := by
  induction n generalizing p t with
  | zero => exact .last h
  | succ n ih =>
    obtain ⟨first, r, hf, h⟩ := bind_ok.mp h
    rw [tryConsume_bind] at h
    split at h
    · rename_i hk
      obtain ⟨second, r', hs, h⟩ := bind_ok.mp h
      obtain ⟨rfl, rfl⟩ := pure_ok.mp h
      exact .cons hf hk (ih hs)
    · obtain ⟨rfl, rfl⟩ := pure_ok.mp h
      exact .last hf

theorem sequence_ok {t : Term} (h : sequence operand p = .ok t q) : Sequenced operand p t q :=
  sequenceWithin_ok h

inductive Chained (operand : Parse Term) : Parser → List Term → Parser → Prop where
  | stop {p : Parser} : Chained operand p [] p
  | cons {p t r ts q} : p.peek.kind.startsArgument = true → operand p = .ok t r →
      Chained operand r ts q → Chained operand p (t :: ts) q

theorem chainArguments_ok {n : Nat} {ts : List Term}
    (h : chainArguments operand n p = .ok ts q) : Chained operand p ts q := by
  induction n generalizing p ts with
  | zero =>
    obtain ⟨rfl, rfl⟩ := pure_ok.mp h
    exact .stop
  | succ n ih =>
    rw [chainArguments, peekKind_bind] at h
    split at h
    · rename_i hk
      obtain ⟨t, r, ht, h⟩ := bind_ok.mp h
      obtain ⟨ts, r', hts, h⟩ := bind_ok.mp h
      obtain ⟨rfl, rfl⟩ := pure_ok.mp h
      exact .cons hk ht (ih hts)
    · obtain ⟨rfl, rfl⟩ := pure_ok.mp h
      exact .stop

theorem application_ok {e : Exp} (h : application operand p = .ok e q) :
    ∃ x f args r cell s, p.arena.findToken? p.scope p.peek = some x ∧ x.signature? = some f ∧
      Chained operand p.advance args r ∧
      Typing.call p.peek f (args.map Term.typed) r.store = .ok cell s ∧
      e = .apply ⟨p.peek, x⟩ args cell p.scope ∧ q = r.withStore s := by
  rw [application, currentScope_bind, advance_bind] at h
  obtain ⟨x, hx, h⟩ := resolve_bind.mp h
  obtain ⟨f, hf, h⟩ := signatureOf_bind.mp h
  rw [tokensAhead_bind] at h
  obtain ⟨args, r, ha, h⟩ := bind_ok.mp h
  obtain ⟨cell, s, hc, h⟩ := typing_bind.mp h
  obtain ⟨rfl, rfl⟩ := pure_ok.mp h
  exact ⟨x, f, args, r, cell, s, hx, hf, chainArguments_ok ha, hc, rfl, rfl⟩

theorem chainOr_ok {other : Parse Term} {e : Exp} (h : chainOr operand other p = .ok e q) :
    (p.peek.kind = .identifier ∧ p.tokens.peekNext.kind.startsArgument = true ∧
      application operand p = .ok e q) ∨
    ∃ item, other p = .ok item q ∧ e = .single p.peek item p.scope := by
  rw [chainOr, peek_bind, peekNext_bind] at h
  split at h
  · rename_i hk
    exact .inl ⟨hk.1, hk.2, h⟩
  · rw [currentScope_bind] at h
    obtain ⟨item, r, hi, h⟩ := bind_ok.mp h
    obtain ⟨rfl, rfl⟩ := pure_ok.mp h
    exact .inr ⟨item, hi, rfl⟩

theorem constant_ok {t : Term} (h : constant p = .ok t q) :
    ∃ value cell s, Constant.ofToken p.peek = .ok value ∧
      Typing.new (.known value.kind) p.store = .ok cell s ∧
      t = .constant p.peek value cell ∧ q = p.advance.withStore s := by
  rw [constant, advance_bind] at h
  cases hv : Constant.ofToken p.peek with
  | error problem =>
    rw [hv] at h
    exact absurd h throw_ok
  | ok value =>
    rw [hv] at h
    obtain ⟨cell, s, hc, h⟩ := typing_bind.mp h
    obtain ⟨rfl, rfl⟩ := pure_ok.mp h
    exact ⟨value, cell, s, rfl, hc, rfl, rfl⟩

theorem signed_ok {t : Term} (h : signed operand p = .ok t q) :
    ∃ inner r cell s, operand p.advance = .ok inner r ∧
      Typing.unary inner.typed r.store = .ok cell s ∧
      t = .unary p.peek inner cell ∧ q = r.withStore s := by
  rw [signed, advance_bind] at h
  obtain ⟨inner, r, hi, h⟩ := bind_ok.mp h
  obtain ⟨cell, s, hc, h⟩ := typing_bind.mp h
  obtain ⟨rfl, rfl⟩ := pure_ok.mp h
  exact ⟨inner, r, cell, s, hi, hc, rfl, rfl⟩

theorem name_ok {t : Term} (h : name operand p = .ok t q) :
    ∃ x, p.arena.findToken? p.scope p.peek = some x ∧
      ((∃ f args r cell s, x.signature? = some f ∧
          Parenthesised (exp operand) p.advance args r ∧
          Typing.call p.peek f (args.map Exp.typed) r.store = .ok cell s ∧
          t = .call ⟨p.peek, x⟩ args cell ∧ q = r.withStore s) ∨
        t = .var ⟨p.peek, x⟩ ∧ q = p.advance) := by
  rw [name, advance_bind] at h
  obtain ⟨x, hx, h⟩ := resolve_bind.mp h
  refine ⟨x, hx, ?_⟩
  rw [peekKind_bind] at h
  by_cases hk : p.advance.peek.kind = .openParen ∨ p.advance.peek.kind = .unit
  · left
    have hcall : (do
        let signature ← signatureOf p.peek x
        let args ← parenthesised (exp operand)
        let cell ← typing (Typing.call p.peek signature (args.map Exp.typed))
        pure (Term.call ⟨p.peek, x⟩ args cell) : Parse Term) p.advance = .ok t q := by
      rcases hk with hk | hk
      · rw [hk] at h
        exact h
      · rw [hk] at h
        exact h
    obtain ⟨f, hf, hcall⟩ := signatureOf_bind.mp hcall
    obtain ⟨args, r, ha, hcall⟩ := bind_ok.mp hcall
    obtain ⟨cell, s, hc, hcall⟩ := typing_bind.mp hcall
    obtain ⟨rfl, rfl⟩ := pure_ok.mp hcall
    exact ⟨f, args, r, cell, s, hf, parenthesised_ok ha, hc, rfl, rfl⟩
  · right
    have hvar : (pure (Term.var ⟨p.peek, x⟩) : Parse Term) p.advance = .ok t q := by
      cases hp : p.advance.peek.kind <;> simp_all
    obtain ⟨rfl, rfl⟩ := pure_ok.mp hvar
    exact ⟨rfl, rfl⟩

theorem grouping_ok {t : Term} (h : grouping operand p = .ok t q) :
    ∃ first r, exp operand p.advance = .ok first r ∧
      ((r.peek.kind = .comma ∧ ∃ second u cell s, exp operand r.advance = .ok second u ∧
          u.peek.kind = .closeParen ∧ Typing.new (.known .pair) u.store = .ok cell s ∧
          t = .pair p.peek first second cell ∧ q = u.advance.withStore s) ∨
        r.peek.kind = .closeParen ∧ t = .paren p.peek first ∧ q = r.advance) := by
  rw [grouping, advance_bind] at h
  obtain ⟨first, r, hf, h⟩ := bind_ok.mp h
  refine ⟨first, r, hf, ?_⟩
  rw [tryConsume_bind] at h
  split at h
  · rename_i hk
    obtain ⟨second, u, hs, h⟩ := bind_ok.mp h
    obtain ⟨hc, h⟩ := expect_bind.mp h
    obtain ⟨cell, s, ht, h⟩ := typing_bind.mp h
    obtain ⟨rfl, rfl⟩ := pure_ok.mp h
    exact .inl ⟨hk, second, u, cell, s, hs, hc, ht, rfl, rfl⟩
  · obtain ⟨hc, h⟩ := expect_bind.mp h
    obtain ⟨rfl, rfl⟩ := pure_ok.mp h
    exact .inr ⟨hc, rfl, rfl⟩

theorem projection_ok {t : Term} (h : projection operand p = .ok t q) :
    ∃ first r second u, p.advance.peek.kind = .openParen ∧
      exp operand p.advance.advance = .ok first r ∧ r.peek.kind = .comma ∧
      exp operand r.advance = .ok second u ∧ u.peek.kind = .closeParen ∧
      t = .projection p.peek (if p.peek.kind = .fstWord then .first else .second) first second ∧
      q = u.advance := by
  rw [projection, advance_bind] at h
  obtain ⟨ho, h⟩ := expect_bind.mp h
  obtain ⟨first, r, hf, h⟩ := bind_ok.mp h
  obtain ⟨hk, h⟩ := expect_bind.mp h
  obtain ⟨second, u, hs, h⟩ := bind_ok.mp h
  obtain ⟨hc, h⟩ := expect_bind.mp h
  obtain ⟨rfl, rfl⟩ := pure_ok.mp h
  exact ⟨first, r, second, u, ho, hf, hk, hs, hc, rfl, rfl⟩

theorem branch_ok {b : Exp × ScopeId} (h : branch operand p = .ok b q) :
    ∃ r, chainOr operand (operators operand) (p.enter .block) = .ok b.1 r ∧
      b.2 = p.arena.size ∧ q = r.leaveScope := by
  rw [branch, enterScope_bind] at h
  obtain ⟨e, r, he, h⟩ := bind_ok.mp h
  rw [leaveScope_bind] at h
  obtain ⟨rfl, rfl⟩ := pure_ok.mp h
  exact ⟨r, he, rfl, rfl⟩

theorem elseBranch_ok {b : Option (Exp × ScopeId)} (h : elseBranch operand p = .ok b q) :
    (p.peek.kind = .elseWord ∧ ∃ c, branch operand p.advance = .ok c q ∧ b = some c) ∨
    (b = none ∧ q = p) := by
  rw [elseBranch, tryConsume_bind] at h
  split at h
  · rename_i hk
    rw [map_eq_pure_bind] at h
    obtain ⟨c, r, hc, h⟩ := bind_ok.mp h
    obtain ⟨rfl, rfl⟩ := pure_ok.mp h
    exact .inl ⟨hk, c, hc, rfl⟩
  · obtain ⟨rfl, rfl⟩ := pure_ok.mp h
    exact .inr ⟨rfl, rfl⟩

/-- The scopes of the branches are copied into the current one, the first branch first. -/
theorem conditional_ok {t : Term} (h : conditional operand p = .ok t q) :
    ∃ condition r first u second v cell s, exp operand p.advance = .ok condition r ∧
      r.peek.kind = .thenWord ∧ branch operand r.advance = .ok first u ∧
      elseBranch operand u = .ok second v ∧
      Typing.conditional condition.typed first.1.typed (second.map fun b => b.1.typed) v.store =
        .ok cell s ∧
      t = .conditional p.peek condition first.1 (second.map (·.1)) cell ∧
      q = (second.map (·.2)).elim ((v.withStore s).absorb first.2)
        ((v.withStore s).absorb first.2).absorb := by
  rw [conditional, advance_bind] at h
  obtain ⟨condition, r, hc, h⟩ := bind_ok.mp h
  obtain ⟨hk, h⟩ := expect_bind.mp h
  obtain ⟨first, u, hf, h⟩ := bind_ok.mp h
  obtain ⟨second, v, hs, h⟩ := bind_ok.mp h
  obtain ⟨cell, s, ht, h⟩ := typing_bind.mp h
  rw [appendToCurrent_bind] at h
  refine ⟨condition, r, first, u, second, v, cell, s, hc, hk, hf, hs, ht, ?_⟩
  cases second with
  | none =>
    obtain ⟨rfl, rfl⟩ := pure_ok.mp h
    exact ⟨rfl, rfl⟩
  | some b =>
    simp only [appendToCurrent_bind] at h
    obtain ⟨rfl, rfl⟩ := pure_ok.mp h
    exact ⟨rfl, rfl⟩

theorem loop_ok {t : Term} (h : loop operand p = .ok t q) :
    ∃ condition r body u cell s, exp operand p.advance = .ok condition r ∧
      r.peek.kind = .doWord ∧ exp operand (r.advance.enter .block) = .ok body u ∧
      u.leaveScope.peek.kind = .doneWord ∧
      Typing.loop condition.typed body.typed u.store = .ok cell s ∧
      t = .loop p.peek condition body cell ∧
      q = (u.leaveScope.advance.withStore s).absorb r.arena.size := by
  rw [loop, advance_bind] at h
  obtain ⟨condition, r, hc, h⟩ := bind_ok.mp h
  obtain ⟨hk, h⟩ := expect_bind.mp h
  rw [enterScope_bind] at h
  obtain ⟨body, u, hb, h⟩ := bind_ok.mp h
  rw [leaveScope_bind] at h
  obtain ⟨hd, h⟩ := expect_bind.mp h
  obtain ⟨cell, s, ht, h⟩ := typing_bind.mp h
  rw [appendToCurrent_bind] at h
  obtain ⟨rfl, rfl⟩ := pure_ok.mp h
  exact ⟨condition, r, body, u, cell, s, hc, hk, hb, hd, ht, rfl, rfl⟩

/-- A recursive function is defined in front of its body, any other one behind it. -/
theorem function_ok {name : Token} {isRec : Bool} {b : Binding}
    (h : function operand name isRec p = .ok b q) :
    ∃ tokens p₁ f s₁ x s₂ p₂ params body p₃ s₃,
      Parenthesised (expect .identifier) p tokens p₁ ∧
      Signature.new tokens.length p₁.store = .ok f s₁ ∧
      Symbol.functionOf p₁.symbols name f s₁ = .ok x s₂ ∧
      p₂ = (bif isRec then ((p₁.numbered 1).withStore s₂).define x
        else (p₁.numbered 1).withStore s₂).enter .function ∧
      params = parameters p₂.symbols tokens f.params ∧
      ((p₂.numbered params.length).defineAll params).peek.kind = .assignment ∧
      exp operand ((p₂.numbered params.length).defineAll params).advance = .ok body p₃ ∧
      Typing.functionBody f body.typed p₃.store = .ok () s₃ ∧
      b = .function x params body isRec p₂.scope ∧
      q = (bif isRec then p₃.leaveScope.withStore s₃
        else (p₃.leaveScope.withStore s₃).define x).defineTag x := by
  obtain ⟨tokens, p₁, ht, h⟩ := bind_ok.mp h
  obtain ⟨f, s₁, hf, h⟩ := typing_bind.mp h
  obtain ⟨x, s₂, hx, h⟩ := newFunction_bind.mp h
  cases isRec
  all_goals
    simp only [Bool.false_eq_true, if_true, if_false, define_bind, enterScope_bind,
      newVariables_bind, defineAll_bind] at h
    obtain ⟨hk, h⟩ := expect_bind.mp h
    obtain ⟨body, p₃, hb, h⟩ := bind_ok.mp h
    rw [leaveScope_bind] at h
    obtain ⟨_, s₃, hs, h⟩ := typing_bind.mp h
    simp only [Bool.not_true, Bool.not_false, Bool.false_eq_true, if_true, if_false, define_bind,
      defineTag_bind] at h
    obtain ⟨rfl, rfl⟩ := pure_ok.mp h
    exact ⟨tokens, p₁, f, s₁, x, s₂, _, _, body, p₃, s₃, parenthesised_ok ht, hf, hx, rfl, rfl,
      hk, hb, hs, rfl, rfl⟩

theorem binding_ok {isRec : Bool} {b : Binding} (h : binding operand isRec p = .ok b q) :
    p.peek.kind = .identifier ∧
      (function operand p.peek isRec p.advance = .ok b q ∨
        ∃ body r, p.advance.peek.kind = .assignment ∧
          exp operand p.advance.advance = .ok body r ∧
          b = .value (.variableOf r.symbols p.peek body.cell) body ∧
          q = (r.numbered 1).define (.variableOf r.symbols p.peek body.cell)) := by
  obtain ⟨hi, h⟩ := expect_bind.mp h
  refine ⟨hi, ?_⟩
  rw [peekKind_bind] at h
  by_cases hk : p.advance.peek.kind = .openParen ∨ p.advance.peek.kind = .unit
  · left
    rcases hk with hk | hk
    · rw [hk] at h
      exact h
    · rw [hk] at h
      exact h
  · right
    have hv : (do
        let _ ← expect .assignment
        let body ← exp operand
        let symbol ← newVariable p.peek body.cell
        define symbol
        pure (Binding.value symbol body) : Parse Binding) p.advance = .ok b q := by
      cases hp : p.advance.peek.kind <;> simp_all
    obtain ⟨ha, hv⟩ := expect_bind.mp hv
    obtain ⟨body, r, hb, hv⟩ := bind_ok.mp hv
    rw [newVariable_bind, define_bind] at hv
    obtain ⟨rfl, rfl⟩ := pure_ok.mp hv
    exact ⟨body, r, ha, hb, rfl, rfl⟩

theorem bindings_ok {isRec : Bool} {bs : List Binding} (h : bindings operand isRec p = .ok bs q) :
    Separated .andWord (binding operand isRec) p bs q := separated_ok h

theorem finishLet_ok {token : Token} {bs : List Binding} {scope : ScopeId} {t : Term}
    (h : finishLet operand token bs scope p = .ok t q) :
    ∃ body r, p.peek.kind = .inWord ∧ exp operand p.advance = .ok body r ∧
      t = .letIn token bs body scope ∧ q = r.leaveScope.absorb scope := by
  obtain ⟨hk, h⟩ := expect_bind.mp h
  obtain ⟨body, r, hb, h⟩ := bind_ok.mp h
  rw [leaveScope_bind, appendToCurrent_bind] at h
  obtain ⟨rfl, rfl⟩ := pure_ok.mp h
  exact ⟨body, r, hk, hb, rfl, rfl⟩

theorem letIn_ok {t : Term} (h : letIn operand p = .ok t q) :
    ∃ bs r, Separated .andWord (binding operand (p.advance.taken? .recWord).isSome)
        ((p.advance.skip .recWord).enter .block) bs r ∧
      finishLet operand p.peek bs (p.advance.skip .recWord).arena.size r = .ok t q := by
  rw [letIn, advance_bind, bind_of_run (tryConsume_run _ _)] at h
  simp only [enterScope_bind] at h
  obtain ⟨bs, r, hb, h⟩ := bind_ok.mp h
  exact ⟨bs, r, bindings_ok hb, h⟩

/-- The productions that an operand may be read by, with the tokens that choose them. -/
inductive OperandCase (operand : Parse Term) (p : Parser) (t : Term) (q : Parser) : Prop where
  | name (kind : p.peek.kind = .identifier) (run : name operand p = .ok t q)
  | constant (kind : p.peek.kind = .int ∨ p.peek.kind = .float ∨ p.peek.kind = .bool ∨
      p.peek.kind = .string ∨ p.peek.kind = .unit) (run : constant p = .ok t q)
  | signed (kind : p.peek.kind = .plus ∨ p.peek.kind = .dash) (run : signed operand p = .ok t q)
  | grouping (kind : p.peek.kind = .openParen) (run : grouping operand p = .ok t q)
  | projection (kind : p.peek.kind = .fstWord ∨ p.peek.kind = .sndWord)
      (run : projection operand p = .ok t q)
  | conditional (kind : p.peek.kind = .ifWord) (run : conditional operand p = .ok t q)
  | loop (kind : p.peek.kind = .whileWord) (run : loop operand p = .ok t q)
  | letIn (kind : p.peek.kind = .letWord) (run : letIn operand p = .ok t q)

theorem operandStep_ok {t : Term} (h : operandStep operand p = .ok t q) :
    OperandCase operand p t q := by
  rw [operandStep, peekKind_bind] at h
  cases hk : p.peek.kind
  all_goals rw [hk] at h
  case identifier => exact .name hk h
  case int | float | bool | string | unit => exact .constant (by simp [hk]) h
  case plus | dash => exact .signed (by simp [hk]) h
  case openParen => exact .grouping hk h
  case fstWord | sndWord => exact .projection (by simp [hk]) h
  case ifWord => exact .conditional hk h
  case whileWord => exact .loop hk h
  case letWord => exact .letIn hk h
  all_goals exact absurd h unexpected_ok

end Expressions

def problem? (item : Parse α) (p : Parser) : Option Problem :=
  match item p with
  | .ok _ _ => none
  | .error d _ => some d.problem

/-- The kinds of tokens that start no operand are those that are reported, whatever comes next. -/
theorem startsOperand_eq_false_iff {kind : TokenKind} : kind.startsOperand = false ↔
    ∀ (operand : Parse Term) (p : Parser), p.peek.kind = kind →
      operandStep operand p = unexpected p := by
  constructor
  · rintro h operand p rfl
    rw [operandStep, peekKind_bind]
    generalize p.peek.kind = kind at h
    cases kind
    all_goals first | rfl | cases h
  · intro h
    let alone : Parser := .ofTokens (.ofList [⟨kind, "", .null⟩] "")
    have hstep : alone.peek.kind = kind → (operandStep unexpected).problem? alone =
        (unexpected (α := Term)).problem? alone := by
      intro hkind
      rw [problem?, h unexpected alone hkind, problem?]
    revert hstep
    cases kind
    all_goals decide +kernel

/-- What the operands of each nesting depth keep from the inner ones, all operands have. -/
theorem operand_induction {P : Parse Term → Prop} (base : P unexpected)
    (step : ∀ operand, P operand → P (operandStep operand)) (n : Nat) : P (operandWithin n) := by
  induction n with
  | zero => exact base
  | succ n ih => exact step _ ih

theorem operand_ok {t : Term} (h : operand p = .ok t q) : ∃ n, operandWithin n p = .ok t q :=
  ⟨p.tokens.ahead.length, h⟩

theorem thenLeaveScope_ok {step : Parse α} {a : α} (h : thenLeaveScope step p = .ok a q) :
    ∃ r, step p = .ok a r ∧ q = r.leaveScope := by
  unfold thenLeaveScope at h
  split at h
  · rename_i b r hr
    cases h
    exact ⟨r, hr, rfl⟩
  · cases h

/-- The definitions of a statement are bound in the file scope, functions under their tags too. -/
def atTop (p : Parser) : Binding → Parser
  | .value x _ => p.defineIn Parser.fileScope x
  | .function x _ _ _ _ => (p.defineIn Parser.fileScope x).defineTagIn Parser.fileScope x

theorem defineAllAtTop_run (bs : List Binding) (p : Parser) :
    defineAllAtTop bs p = .ok () (bs.foldl atTop p) := by
  induction bs generalizing p with
  | nil => rfl
  | cons b bs ih =>
    cases b with
    | value x body => exact ih (atTop p (.value x body))
    | function x params body isRec scope => exact ih (atTop p (.function x params body isRec scope))

theorem expStmt_ok {token : Token} {block : ScopeId} {ss : List Stmt}
    (h : expStmt token block p = .ok ss q) :
    ∃ e r, exp operand p = .ok e r ∧ r.peek.kind = .doubleSemicolon ∧ q = r.advance ∧
      ss = [⟨e.var?.elim (.exp e) .var, token, block⟩] := by
  obtain ⟨e, r, he, h⟩ := bind_ok.mp h
  obtain ⟨hk, h⟩ := expect_bind.mp h
  refine ⟨e, r, he, hk, ?_⟩
  cases hv : e.var? with
  | none =>
    rw [hv] at h
    obtain ⟨rfl, rfl⟩ := pure_ok.mp h
    exact ⟨rfl, rfl⟩
  | some use =>
    rw [hv] at h
    obtain ⟨rfl, rfl⟩ := pure_ok.mp h
    exact ⟨rfl, rfl⟩

theorem letStmt_ok {token : Token} {block : ScopeId} {ss : List Stmt}
    (h : letStmt token block p = .ok ss q) :
    ∃ bs r, Separated .andWord (binding operand (p.advance.taken? .recWord).isSome)
        ((p.advance.skip .recWord).enter .block) bs r ∧
      ((∃ item u, finishLet operand token bs (p.advance.skip .recWord).arena.size r = .ok item u ∧
          u.peek.kind = .doubleSemicolon ∧ q = u.advance ∧
          ss = [⟨.exp (.single token item block), token, block⟩]) ∨
        (r.leaveScope.peek.kind = .doubleSemicolon ∧ q = bs.foldl atTop r.leaveScope.advance ∧
          ss = bs.map fun b => ⟨.define b, token, block⟩)) := by
  rw [letStmt, advance_bind, bind_of_run (tryConsume_run _ _)] at h
  simp only [enterScope_bind] at h
  obtain ⟨bs, r, hb, h⟩ := bind_ok.mp h
  refine ⟨bs, r, bindings_ok hb, ?_⟩
  rw [peekKind_bind] at h
  split at h
  · obtain ⟨item, u, hi, h⟩ := bind_ok.mp h
    obtain ⟨hk, h⟩ := expect_bind.mp h
    obtain ⟨rfl, rfl⟩ := pure_ok.mp h
    exact .inl ⟨item, u, hi, hk, rfl, rfl⟩
  · rw [leaveScope_bind] at h
    obtain ⟨hk, h⟩ := expect_bind.mp h
    rw [bind_of_run (defineAllAtTop_run bs _)] at h
    obtain ⟨rfl, rfl⟩ := pure_ok.mp h
    exact .inr ⟨hk, rfl, rfl⟩

theorem stmt_ok {ss : List Stmt} (h : stmt p = .ok ss q) :
    ∃ r, q = r.leaveScope ∧
      ((p.peek.kind = .letWord ∧
          letStmt p.peek p.arena.size (p.enter .block) = .ok ss r) ∨
        expStmt p.peek p.arena.size (p.enter .block) = .ok ss r) := by
  rw [stmt, peek_bind, enterScope_bind] at h
  obtain ⟨r, hr, rfl⟩ := thenLeaveScope_ok h
  refine ⟨r, rfl, ?_⟩
  split at hr
  · rename_i hk
    exact .inl ⟨hk, hr⟩
  · exact .inr hr

/-- A step of the statements: a lone double semicolon is passed, anything else is a statement. -/
theorem stmts_succ_ok {n : Nat} {ss : List Stmt} (h : stmts (n + 1) p = .ok ss q) :
    (p.hasTokens = true ∧ p.peek.kind = .doubleSemicolon ∧ stmts n p.advance = .ok ss q) ∨
    (p.hasTokens = true ∧ ∃ first r others, stmt p = .ok first r ∧
      stmts n r = .ok others q ∧ ss = first ++ others) ∨
    (p.hasTokens = false ∧ ss = [] ∧ q = p) := by
  rw [stmts, hasTokens_bind] at h
  split at h
  · rename_i ht
    rw [tryConsume_bind] at h
    split at h
    · rename_i hk
      exact .inl ⟨ht, hk, h⟩
    · obtain ⟨first, r, hf, h⟩ := bind_ok.mp h
      obtain ⟨others, u, ho, h⟩ := bind_ok.mp h
      obtain ⟨rfl, rfl⟩ := pure_ok.mp h
      exact .inr (.inl ⟨ht, first, r, others, hf, ho, rfl⟩)
  · rename_i ht
    obtain ⟨rfl, rfl⟩ := pure_ok.mp h
    exact .inr (.inr ⟨by simpa using ht, rfl, rfl⟩)

end MiniMl.Parse

namespace MiniMl

theorem parse_ok {tokens : TokenSequence} {program : Program} (h : parse tokens = .ok program) :
    ∃ p, Parse.stmts tokens.ahead.length (.ofTokens tokens) = .ok program.stmts p ∧
      program.scope = Parser.fileScope ∧ program.arena = p.arena ∧ program.store = p.store := by
  unfold parse at h
  split at h
  · rename_i ss p hp
    cases h
    exact ⟨p, hp, rfl, rfl, rfl⟩
  · cases h

end MiniMl
