import MiniMl.Proofs.Parser.Steady
import MiniMl.Proofs.Tree.Precedence

/-! # Statements that begin with `let`

A statement that begins with `let` is read by a path of its own, which ends with the body of the
let. In parentheses the same tokens are read as any expression, and may go on behind the body.
-/

namespace MiniMl

def Exp.isLet : Exp → Bool
  | .single _ (.letIn _ _ _ _) _ => true
  | _ => false

theorem Exp.single_of_isLet {e : Exp} (h : e.isLet = true) :
    ∃ root item block, e = .single root item block ∧ item.IsOperand := by
  unfold isLet at h
  split at h
  · exact ⟨_, _, _, rfl, rfl, rfl⟩
  · cases h

namespace Parse

variable {p q r : Parser} {op : Parse Term} {e : Exp} {t : Term} {more us vs ts : List Token}

/-! The reader of operands is the one step over itself. -/

theorem Agree.within_operand {f : Location → Location} {b : Nat} :
    Agree f b 1 (Term.relocate f) (Parse.operandWithin b) Parse.operand :=
  fun _ q hp hleft => Agree.operandWithin hleft (hp.left_eq ▸ q.left_le_ahead) hp (Nat.le_refl _)

theorem Agree.operand_within {f : Location → Location} {b : Nat} :
    Agree f b 1 (Term.relocate f) Parse.operand (Parse.operandWithin b) :=
  fun p _ hp hleft => Agree.operandWithin p.left_le_ahead hleft hp (Nat.le_refl _)

theorem operandStep_operand (hp : p.tokens.Ended) (hnext : p.peek.kind ≠ .endOfInput) :
    Same id (Term.relocate id) 1 p.left (operandStep operand p) (operand p) := by
  have hpos := Parser.left_pos hp hnext
  obtain ⟨b, hb⟩ := Nat.exists_eq_add_of_lt (Nat.lt_of_lt_of_le hpos p.left_le_ahead)
  have hleft : p.left ≤ b + 1 := by
    have := p.left_le_ahead
    omega
  rw [operand, tokensAhead_bind, hb, Nat.zero_add]
  exact Agree.operandStep (Agree.operand_within (b := b)) (.refl hp) hleft

theorem operand_of_step (hp : p.tokens.Ended) (h : operandStep operand p = .ok t q) :
    ∃ s, operand p = .ok t (q.reading s) ∧ s.rest = q.tokens.rest ∧ s.Ended := by
  have hnext : p.peek.kind ≠ .endOfInput := by
    intro hend
    rw [operandStep, peekKind_bind, hend] at h
    exact unexpected_ok h
  have hsame := operandStep_operand hp hnext
  rw [h] at hsame
  generalize operand p = result at hsame
  cases hsame with
  | @ok _ u _ q' hu hrelaid _ =>
    obtain ⟨hreading, hrest, hended⟩ := hrelaid.reading
    refine ⟨q'.tokens, ?_, hrest, hended⟩
    rw [hu, Term.relocate_id, ← hreading]

theorem operand_of_failed_step {d : Diagnostic} (hp : p.tokens.Ended)
    (hnext : p.peek.kind ≠ .endOfInput) (h : operandStep operand p = .error d q) :
    ∃ q', operand p = .error d q' := by
  have hsame := operandStep_operand hp hnext
  rw [h] at hsame
  generalize operand p = result at hsame
  cases hsame with
  | error hd => exact ⟨_, by rw [hd]; rfl⟩

theorem step_of_operand (hp : p.tokens.Ended) (h : operand p = .ok t q) :
    ∃ s, operandStep operand p = .ok t (q.reading s) ∧ s.rest = q.tokens.rest ∧ s.Ended := by
  rw [operand, tokensAhead_bind] at h
  cases hb : p.tokens.ahead.length with
  | zero =>
    rw [hb] at h
    exact absurd h unexpected_ok
  | succ b =>
    rw [hb] at h
    obtain ⟨q', hq', hrelaid⟩ := (Agree.operandStep (f := id) (Agree.within_operand (b := b))).run
      Term.relocate_id hp (hb ▸ p.left_le_ahead) h
    obtain ⟨hsame, hrest, hended⟩ := hrelaid.reading
    exact ⟨q'.tokens, hsame ▸ hq', hrest, hended⟩

theorem operandStep_of_let (hlet : p.peek.kind = .letWord) : operandStep op p = letIn op p := by
  rw [operandStep, peekKind_bind, hlet]

theorem operandStep_of_open (hopen : p.peek.kind = .openParen) :
    operandStep op p = grouping op p := by
  rw [operandStep, peekKind_bind, hopen]

/-! An expression that is one operand. -/

theorem climb_stops (b floor : Nat) (hpower : p.peek.kind.power? = none) :
    climb op b floor t p = .ok t p := by
  cases b with
  | zero => rfl
  | succ b =>
    rw [climb, peekKind_bind, hpower]
    rfl

/-- No operator and no semicolon goes on with what was read. -/
structure ExpEnds (kind : TokenKind) : Prop where
  power : kind.power? = none
  semicolon : kind ≠ .semicolon

theorem ExpEnds.of_rests {kind : TokenKind} (h : kind.continues = false) : ExpEnds kind :=
  ⟨TokenKind.power?_of_rests h, TokenKind.ne_of_rests h rfl⟩

theorem sequenceWithin_of_operand (b : Nat) (h : op p = .ok t q) (hends : ExpEnds q.peek.kind) :
    sequenceWithin op b p = .ok t q := by
  have hoperators : operators op p = .ok t q := by
    rw [operators, bind_of_run h, climbFrom, tokensAhead_bind]
    exact climb_stops _ 0 hends.power
  cases b with
  | zero => exact hoperators
  | succ b =>
    rw [sequenceWithin, bind_of_run hoperators, tryConsume_bind, if_neg hends.semicolon]
    rfl

theorem exp_of_operand
    (hchain : ¬ (p.peek.kind = .identifier ∧ p.tokens.peekNext.kind.startsArgument = true))
    (h : op p = .ok t q) (hends : ExpEnds q.peek.kind) :
    exp op p = .ok (.single p.peek t p.scope) q := by
  have hsequence : sequence op p = .ok t q := sequenceWithin_of_operand _ h hends
  rw [exp, chainOr, peek_bind, peekNext_bind, if_neg hchain, currentScope_bind,
    bind_of_run hsequence]
  rfl

theorem exp_of_failed_operand {d : Diagnostic}
    (hchain : ¬ (p.peek.kind = .identifier ∧ p.tokens.peekNext.kind.startsArgument = true))
    (h : op p = .error d q) : exp op p = .error d q := by
  have hoperators : operators op p = .error d q := bind_of_error h
  have hsequence : sequence op p = .error d q := by
    rw [sequence, tokensAhead_bind]
    cases p.tokens.ahead.length with
    | zero => exact hoperators
    | succ b => exact bind_of_error hoperators
  rw [exp, chainOr, peek_bind, peekNext_bind, if_neg hchain, currentScope_bind]
  exact bind_of_error hsequence

theorem Climbs.cases {floor : Nat} {lhs : Term} (h : Climbs op floor lhs p t q) :
    (t = lhs ∧ q = p) ∨ t.operator? ≠ none := by
  induction h with
  | stop => exact .inl ⟨rfl, rfl⟩
  | step hpower hfloor hfirst hrhs hcell hclimbs ihrhs ih =>
    right
    rcases ih with ⟨rfl, -⟩ | h
    · exact Option.some_ne_none _
    · exact h

theorem operand_of_exp {root : Token} {block : ScopeId}
    (h : exp op p = .ok (.single root t block) q) (ht : t.IsOperand) :
    op p = .ok t q ∧ root = p.peek ∧ block = p.scope := by
  rcases chainOr_ok h with ⟨-, -, h⟩ | ⟨item, hitem, he⟩
  · obtain ⟨_, _, _, _, _, _, -, -, -, -, he, -⟩ := application_ok h
    cases he
  · cases he
    refine ⟨?_, rfl, rfl⟩
    cases sequence_ok hitem with
    | last h =>
      obtain ⟨first, r, hfirst, hclimbs⟩ := operators_ok h
      rcases hclimbs.cases with ⟨rfl, rfl⟩ | hoperator
      · exact hfirst
      · exact absurd ht.noOperator hoperator
    | cons => cases ht.noSequence

/-! Both paths come down to one run of the let. -/

/-- The tokens are read as one let, `ts` are left, and the state outside of the block is then `r`
but for its tokens. -/
def ReadsLet (p : Parser) (e : Exp) (ts : List Token) (r : Parser) : Prop :=
  ∃ item q, letIn operand p = .ok item q ∧ q.tokens.rest = ts ∧
    e = .single p.peek item p.scope ∧ ∀ s, q.leaveScope.reading s = r.reading s

theorem ReadsLet.swap (h : ReadsLet p e ts r) (hlet : p.peek.kind = .letWord)
    (hswapped : p.Swapped us vs q) (hrests : Resting us vs) (hleft : ts.length = us.length) :
    ts = us ∧ ReadsLet q e vs r := by
  obtain ⟨item, p', hrun, hrest, rfl, hsame⟩ := h
  have hcarries : Carries us vs (Resting us vs) 1 (letIn operand) p item p' :=
    SteadyOperand.operand.letIn hswapped.ended (by rw [hlet]; decide) hrun
  have hleft' : us.length = p'.left := by rw [Parser.left, hrest, hleft]
  obtain ⟨q', hq', hswapped'⟩ := hcarries.again hswapped (.inr ⟨hleft', hrests⟩)
  have hnext := hcarries.read
  obtain ⟨front, hfront, hfront'⟩ := hswapped'.rest
  have hnil : front = [] := by
    rw [Parser.left, hfront, List.length_append] at hleft'
    exact List.length_eq_zero_iff.mp (by omega)
  subst hnil
  refine ⟨hrest.symm.trans hfront, item, q', hq', hfront', ?_, fun s => ?_⟩
  · rw [(hswapped.next (by omega)).1, hswapped.same]
    rfl
  · rw [hswapped'.same]
    exact hsame s

/-- The tokens are accepted as one expression statement with `more` behind it, and the state is then
`r` but for its tokens. -/
def Accepts (p : Parser) (e : Exp) (more : List Token) (r : Parser) : Prop :=
  ∃ s, stmt p = .ok [⟨.exp e, p.peek, p.arena.size⟩] (r.reading s) ∧ s.rest = more

theorem thenLeaveScope_run {α : Type} {step : Parse α} {a : α} (h : step p = .ok a q) :
    thenLeaveScope step p = .ok a q.leaveScope := by
  unfold thenLeaveScope
  rw [h]

theorem stmt_of_let (hlet : p.peek.kind = .letWord) :
    stmt p = thenLeaveScope (letStmt p.peek p.arena.size) (p.enter .block) := by
  rw [stmt, peek_bind, enterScope_bind, if_pos hlet]

theorem stmt_of_exp (hlet : p.peek.kind ≠ .letWord) :
    stmt p = thenLeaveScope (expStmt p.peek p.arena.size) (p.enter .block) := by
  rw [stmt, peek_bind, enterScope_bind, if_neg hlet]

theorem letStmt_of_letIn (block : ScopeId) (h : letIn operand p = .ok t q)
    (hend : q.peek.kind = .doubleSemicolon) :
    letStmt p.peek block p = .ok [⟨.exp (.single p.peek t block), p.peek, block⟩] q.advance := by
  rw [letIn, advance_bind, bind_of_run (tryConsume_run _ _), enterScope_bind] at h
  obtain ⟨bs, r, hbs, hfinish⟩ := bind_ok.mp h
  obtain ⟨-, -, hin, -⟩ := finishLet_ok hfinish
  rw [letStmt, advance_bind, bind_of_run (tryConsume_run _ _), enterScope_bind, bind_of_run hbs,
    peekKind_bind, if_pos hin, bind_of_run hfinish]
  exact expect_bind.mpr ⟨hend, rfl⟩

theorem letIn_of_letStmt {root : Token} {block scope : ScopeId}
    (h : letStmt p.peek block p = .ok [⟨.exp e, root, scope⟩] q) :
    ∃ item r, letIn operand p = .ok item r ∧ r.peek.kind = .doubleSemicolon ∧ q = r.advance ∧
      e = .single p.peek item block := by
  rw [letStmt, advance_bind, bind_of_run (tryConsume_run _ _), enterScope_bind] at h
  obtain ⟨bs, r, hbs, h⟩ := bind_ok.mp h
  rw [peekKind_bind] at h
  by_cases hin : r.peek.kind = .inWord
  · rw [if_pos hin] at h
    obtain ⟨item, u, hfinish, h⟩ := bind_ok.mp h
    obtain ⟨hend, h⟩ := expect_bind.mp h
    obtain ⟨hstmts, rfl⟩ := pure_ok.mp h
    cases hstmts
    refine ⟨item, u, ?_, hend, rfl, rfl⟩
    rw [letIn, advance_bind, bind_of_run (tryConsume_run _ _), enterScope_bind, bind_of_run hbs]
    exact hfinish
  · rw [if_neg hin, leaveScope_bind] at h
    obtain ⟨-, h⟩ := expect_bind.mp h
    rw [bind_of_run (defineAllAtTop_run bs _)] at h
    obtain ⟨hstmts, -⟩ := pure_ok.mp h
    -- Definitions are no expressions.
    cases bs with
    | nil => cases hstmts
    | cons b bs => cases hstmts

theorem rest_of_peek {kind : TokenKind} (hp : p.tokens.Ended) (hnext : p.peek.kind = kind)
    (hkind : kind ≠ .endOfInput) : p.tokens.rest = p.peek :: p.advance.tokens.rest :=
  (TokenSequence.rest_eq_cons hp (hnext ▸ hkind)).1

theorem peek_of_rest (hp : p.tokens.Ended) {token : Token} (hrest : p.tokens.rest = token :: more) :
    p.peek.kind = token.kind ∧ p.advance.tokens.rest = more := by
  constructor
  · rw [Parser.peek, TokenSequence.peek_kind hp, hrest]
    rfl
  · rw [Parser.advance, TokenSequence.rest_advance, hrest]
    rfl

theorem letIn_ended (hp : p.tokens.Ended) (hlet : p.peek.kind = .letWord)
    (h : letIn operand p = .ok t q) : q.tokens.Ended := by
  have hoperand : SteadyOperand [] [] operand := .operand
  exact (hoperand.letIn hp (by rw [hlet]; decide) h).ended hp

theorem exp_ended (hp : p.tokens.Ended) (h : exp operand p = .ok e q) : q.tokens.Ended := by
  have hoperand : SteadyOperand [] [] operand := .operand
  exact (hoperand.exp hp h).ended hp

theorem accepts_let (hp : p.tokens.Ended) (hlet : p.peek.kind = .letWord) :
    Accepts p e more r ↔ ∃ token : Token, token.kind = .doubleSemicolon ∧
      ReadsLet (p.enter .block) e (token :: more) r := by
  constructor
  · rintro ⟨s, h, hs⟩
    rw [stmt_of_let hlet] at h
    obtain ⟨q, h, hq⟩ := thenLeaveScope_ok h
    obtain ⟨item, u, hrun, hend, rfl, rfl⟩ := letIn_of_letStmt (p := p.enter .block) h
    have hu : u.tokens.Ended := letIn_ended (p := p.enter .block) hp hlet hrun
    refine ⟨u.peek, hend, item, u, hrun, ?_, rfl, fun s' => ?_⟩
    · rw [rest_of_peek hu hend (by decide), ← hs]
      exact congrArg (fun q => u.peek :: q.tokens.rest) hq.symm
    · exact congrArg (·.reading s') hq.symm
  · rintro ⟨token, htoken, item, u, hrun, hrest, rfl, hsame⟩
    have hu : u.tokens.Ended := letIn_ended (p := p.enter .block) hp hlet hrun
    obtain ⟨hend, hmore⟩ := peek_of_rest hu hrest
    refine ⟨u.advance.tokens, ?_, hmore⟩
    rw [stmt_of_let hlet, ← hsame]
    exact thenLeaveScope_run (letStmt_of_letIn p.arena.size hrun (hend.trans htoken))

theorem grouping_of_exp (h : exp op p.advance = .ok e q) (hclose : q.peek.kind = .closeParen) :
    grouping op p = .ok (.paren p.peek e) q.advance := by
  rw [grouping, advance_bind, bind_of_run h, tryConsume_bind,
    if_neg (by rw [hclose]; decide)]
  exact expect_bind.mpr ⟨hclose, rfl⟩

theorem exp_of_grouping {token : Token} (h : grouping op p = .ok (.paren token e) q) :
    ∃ r, exp op p.advance = .ok e r ∧ r.peek.kind = .closeParen ∧ q = r.advance := by
  obtain ⟨first, r, hfirst, ⟨-, _, _, _, _, -, -, -, ht, -⟩ | ⟨hclose, ht, hq⟩⟩ := grouping_ok h
  · cases ht
  · cases ht
    exact ⟨r, hfirst, hclose, hq⟩

theorem expStmt_of_exp (root : Token) (block : ScopeId) (h : exp operand p = .ok e q)
    (hvar : e.var? = none) (hend : q.peek.kind = .doubleSemicolon) :
    expStmt root block p = .ok [⟨.exp e, root, block⟩] q.advance := by
  rw [expStmt, bind_of_run h]
  refine expect_bind.mpr ⟨hend, ?_⟩
  rw [hvar]
  rfl

theorem exp_of_expStmt {root root' : Token} {block block' : ScopeId}
    (h : expStmt root block p = .ok [⟨.exp e, root', block'⟩] q) :
    ∃ r, exp operand p = .ok e r ∧ r.peek.kind = .doubleSemicolon ∧ q = r.advance := by
  obtain ⟨e', r, hexp, hend, rfl, hstmts⟩ := expStmt_ok h
  refine ⟨r, ?_, hend, rfl⟩
  cases hvar : e'.var? with
  | none =>
    rw [hvar] at hstmts
    cases hstmts
    exact hexp
  | some use =>
    rw [hvar] at hstmts
    cases hstmts

theorem letIn_isLet {root : Token} {block : ScopeId} (h : letIn op p = .ok t q) :
    (Exp.single root t block).isLet = true := by
  obtain ⟨bs, r, -, hfinish⟩ := letIn_ok h
  obtain ⟨body, u, -, -, rfl, -⟩ := finishLet_ok hfinish
  rfl

section Parentheses

variable (hp : p.tokens.Ended) (hopen : p.peek.kind = .openParen)
  (hlet : p.advance.peek.kind = .letWord)

include hp hopen hlet

/-- The two layers of the parentheses are peeled off, and each reads an operand. -/
theorem readsLet_of_accepts (he : e.isLet = true)
    (h : Accepts p (.single p.peek (.paren p.peek e) p.arena.size) more r) :
    ∃ closing token : Token, closing.kind = .closeParen ∧ token.kind = .doubleSemicolon ∧
      ReadsLet (p.enter .block).advance e (closing :: token :: more) r := by
  have hp' : (p.enter .block).advance.tokens.Ended := TokenSequence.Ended.advance hp
  obtain ⟨s, h, hs⟩ := h
  rw [stmt_of_exp (by rw [hopen]; decide)] at h
  obtain ⟨q, h, hq⟩ := thenLeaveScope_ok h
  obtain ⟨u, houter, hend, rfl⟩ := exp_of_expStmt h
  have hu : u.tokens.Ended := exp_ended (p := p.enter .block) hp houter
  obtain ⟨hparen, -, -⟩ := operand_of_exp houter ⟨rfl, rfl⟩
  obtain ⟨s₁, hstep, hs₁, -⟩ := step_of_operand (p := p.enter .block) hp hparen
  rw [operandStep_of_open (p := p.enter .block) hopen] at hstep
  obtain ⟨v, hinner, hclose, hv⟩ := exp_of_grouping hstep
  have hv' : v.tokens.Ended := exp_ended hp' hinner
  obtain ⟨root, item, block, rfl, hitem⟩ := Exp.single_of_isLet he
  obtain ⟨hoperand, rfl, rfl⟩ := operand_of_exp hinner hitem
  obtain ⟨s₂, hstep', hs₂, -⟩ := step_of_operand hp' hoperand
  rw [operandStep_of_let (p := (p.enter .block).advance) hlet] at hstep'
  refine ⟨v.peek, u.peek, hclose, hend, item, v.reading s₂, hstep', ?_, rfl, fun s' => ?_⟩
  · change s₂.rest = _
    rw [hs₂, rest_of_peek hv' hclose (by decide), ← hv]
    change _ :: s₁.rest = _
    rw [hs₁, rest_of_peek hu hend (by decide), ← hs]
    exact congrArg (fun q => v.peek :: u.peek :: q.tokens.rest) hq.symm
  · have hsame : ∀ s, u.reading s = v.reading s := fun s => congrArg (·.reading s) hv
    change (v.reading s').leaveScope = _
    rw [← hsame]
    exact congrArg (·.reading s') hq.symm

theorem accepts_of_readsLet {closing token : Token} (hclosing : closing.kind = .closeParen)
    (htoken : token.kind = .doubleSemicolon)
    (h : ReadsLet (p.enter .block).advance e (closing :: token :: more) r) :
    e.isLet = true ∧ Accepts p (.single p.peek (.paren p.peek e) p.arena.size) more r := by
  have hp' : (p.enter .block).advance.tokens.Ended := TokenSequence.Ended.advance hp
  obtain ⟨item, u, hrun, hrest, rfl, hsame⟩ := h
  refine ⟨letIn_isLet hrun, ?_⟩
  rw [← operandStep_of_let (p := (p.enter .block).advance) hlet] at hrun
  obtain ⟨s₁, hoperand, hs₁, hended₁⟩ := operand_of_step hp' hrun
  obtain ⟨hclose, hafter⟩ := peek_of_rest (p := u.reading s₁) hended₁ (hs₁.trans hrest)
  have hinner := exp_of_operand (fun hchain => by cases hlet.symm.trans hchain.1) hoperand
    (.of_rests (by rw [hclose, hclosing]; rfl))
  have hgrouping := grouping_of_exp hinner (hclose.trans hclosing)
  rw [← operandStep_of_open (p := p.enter .block) hopen] at hgrouping
  obtain ⟨s₂, hparen, hs₂, hended₂⟩ := operand_of_step (p := p.enter .block) hp hgrouping
  obtain ⟨hend, hmore⟩ := peek_of_rest (p := (u.reading s₁).advance.reading s₂) hended₂
    (hs₂.trans hafter)
  have houter := exp_of_operand (fun hchain => by cases hopen.symm.trans hchain.1) hparen
    (.of_rests (by rw [hend, htoken]; rfl))
  refine ⟨s₂.advance, ?_, hmore⟩
  rw [stmt_of_exp (by rw [hopen]; decide), ← hsame]
  exact thenLeaveScope_run (expStmt_of_exp p.peek p.arena.size houter rfl (hend.trans htoken))

end Parentheses

end Parse

theorem lookahead_append {ts : List Token} {kind : TokenKind} (h : lookahead ts = kind)
    (hkind : kind ≠ .endOfInput) (us : List Token) : lookahead (ts ++ us) = kind := by
  cases ts with
  | nil => exact absurd h.symm hkind
  | cons t ts => exact h

/-- The expression of a lone statement, with the token and the scope of the statement. -/
def loneExp? : List Stmt → Option (Exp × Token × ScopeId)
  | [⟨.exp e, token, scope⟩] => some (e, token, scope)
  | _ => none

theorem loneExp?_some {ss : List Stmt} {e : Exp} {token : Token} {scope : ScopeId}
    (h : loneExp? ss = some (e, token, scope)) : ss = [⟨.exp e, token, scope⟩] := by
  unfold loneExp? at h
  split at h
  next =>
    cases h
    rfl
  next => cases h

/-- A statement that begins with `let` is accepted as an expression exactly if it is one let with
nothing behind its body and is accepted in parentheses. Both read the same expression and leave the
same state. -/
theorem let_statement_iff_parenthesised {p r : Parser} {s : TokenSequence}
    {expression more : List Token} {opening closing semicolon : Token} {e : Exp}
    (hp : p.tokens.Ended) (hs : s.Ended) (hlet : lookahead expression = .letWord)
    (hopening : opening.kind = .openParen) (hclosing : closing.kind = .closeParen)
    (hsemicolon : semicolon.kind = .doubleSemicolon)
    (hbare : p.tokens.rest = expression ++ semicolon :: more)
    (hparens : s.rest = opening :: (expression ++ closing :: semicolon :: more)) :
    Parse.Accepts p e more r ↔ e.isLet = true ∧
      Parse.Accepts (p.reading s) (.single opening (.paren opening e) p.arena.size) more r := by
  have hfirst : p.peek.kind = .letWord := by
    rw [Parser.peek, TokenSequence.peek_kind hp, hbare]
    exact lookahead_append hlet (by decide) _
  have hpeek : (p.reading s).peek = opening := by
    change s.peek = opening
    rw [TokenSequence.peek_eq, hparens]
    rfl
  have hopen : (p.reading s).peek.kind = .openParen := hpeek ▸ hopening
  have hrest : s.advance.rest = expression ++ closing :: semicolon :: more := by
    rw [TokenSequence.rest_advance, hparens]
    rfl
  have hsecond : (p.reading s).advance.peek.kind = .letWord := by
    change s.advance.peek.kind = _
    rw [TokenSequence.peek_kind hs.advance, hrest]
    exact lookahead_append hlet (by decide) _
  -- The let is read in front of the double semicolon or of the parenthesis.
  have hswapped : (p.enter .block).Swapped (semicolon :: more) (closing :: semicolon :: more)
      ((p.reading s).enter .block).advance := ⟨hp, hs.advance, ⟨expression, hbare, hrest⟩, rfl⟩
  have hrests : Resting (semicolon :: more) (closing :: semicolon :: more) := by
    refine ⟨?_, ?_⟩
    · change semicolon.kind.continues = false
      rw [hsemicolon]
      rfl
    · change closing.kind.continues = false
      rw [hclosing]
      rfl
  constructor
  · intro h
    obtain ⟨token, -, hreads⟩ := (Parse.accepts_let hp hfirst).mp h
    obtain ⟨-, hreads⟩ := hreads.swap hfirst hswapped hrests rfl
    rw [← hpeek]
    exact Parse.accepts_of_readsLet (p := p.reading s) hs hopen hsecond hclosing hsemicolon hreads
  · rintro ⟨he, h⟩
    rw [← hpeek] at h
    obtain ⟨closing', token, -, -, hreads⟩ :=
      Parse.readsLet_of_accepts (p := p.reading s) hs hopen hsecond he h
    obtain ⟨-, hreads⟩ := hreads.swap hsecond hswapped.symm ⟨hrests.right, hrests.left⟩ rfl
    exact (Parse.accepts_let hp hfirst).mpr ⟨semicolon, hsemicolon, hreads⟩

theorem let_statement_iff_parenthesised_name :
    ∃ p s e r opening, p.tokens.Ended ∧ s.Ended ∧ Parse.Accepts p e [] r ∧ e.isLet = true ∧
      Parse.Accepts (p.reading s) (.single opening (.paren opening e) p.arena.size) [] r := by
  let token : TokenKind → String → Token := fun kind text => ⟨kind, text, .null⟩
  let expression := [token .letWord "let", token .identifier "x", token .assignment "=",
    token .int "1", token .inWord "in", token .identifier "x"]
  let opening := token .openParen "("
  let closing := token .closeParen ")"
  let semicolon := token .doubleSemicolon ";;"
  let p : Parser := .ofTokens (.ofList (expression ++ [semicolon]) "shell")
  let s : TokenSequence := .ofList (opening :: (expression ++ [closing, semicolon])) "shell"
  have hrun : ((Parse.outcome? Parse.stmt p).bind fun run => (loneExp? run.1).map fun lone =>
      lone.2 == (p.peek, p.arena.size) && run.2.tokens.rest == []) = some true := by decide +kernel
  obtain ⟨⟨ss, q⟩, hstmt, hrun⟩ := Option.bind_eq_some_iff.mp hrun
  obtain ⟨⟨e, root, block⟩, hlone, hrun⟩ := Option.map_eq_some_iff.mp hrun
  simp only [Bool.and_eq_true, beq_iff_eq, Prod.mk.injEq] at hrun
  obtain ⟨⟨rfl, rfl⟩, hrest⟩ := hrun
  obtain rfl := loneExp?_some hlone
  have haccepts : Parse.Accepts p e [] q := ⟨q.tokens, Parse.outcome?_eq_some.mp hstmt, hrest⟩
  have hbare : p.tokens.rest = expression ++ semicolon :: [] := rfl
  have hparens : s.rest = opening :: (expression ++ closing :: semicolon :: []) := rfl
  have hp : p.tokens.Ended := rfl
  have hs : s.Ended := rfl
  exact ⟨p, s, e, q, opening, hp, hs, haccepts,
    (let_statement_iff_parenthesised hp hs rfl rfl rfl rfl hbare hparens).mp haccepts⟩

def isLetSum : List StmtKind → Bool
  | [.exp (.single root (.paren root' (.single token (.binary _ (.letIn token' _ _ _) _ _)
      block)) block')] => root == root' && token == token' && block == block'
  | _ => false

theorem letSum_of_isLetSum {kinds : List StmtKind} (h : isLetSum kinds = true) :
    ∃ root op bs body scope token rhs cell block, kinds = [.exp (.single root (.paren root
      (.single token (.binary op (.letIn token bs body scope) rhs cell) block)) block)] := by
  unfold isLetSum at h
  split at h
  next root root' token op token' bs body scope rhs cell block block' =>
    simp only [Bool.and_eq_true, beq_iff_eq] at h
    obtain ⟨⟨rfl, rfl⟩, rfl⟩ := h
    exact ⟨_, _, _, _, _, _, _, _, _, rfl⟩
  next => cases h

/-- The body of this let ends with the argument `1`, so that in parentheses the sum goes on behind
the let. As a statement the same tokens are rejected where they go on. -/
theorem let_in_sum_rejected :
    compile "let f(x) = x in f 1 + 2 ;;" "shell" =
      .error ⟨.unexpectedToken ";;" "+", ⟨"shell", 1, 21, 0⟩⟩ ∧
    ∃ program root op bs body scope token rhs cell block,
      compile "(let f(x) = x in f 1 + 2) ;;" "shell" = .ok program ∧
      program.stmts.map Stmt.kind = [.exp (.single root (.paren root
        (.single token (.binary op (.letIn token bs body scope) rhs cell) block)) block)] := by
  have herror : (match compile "let f(x) = x in f 1 + 2 ;;" "shell" with
      | .error d => d == ⟨.unexpectedToken ";;" "+", ⟨"shell", 1, 21, 0⟩⟩
      | .ok _ => false) = true := by decide +kernel
  have hrun : (compile "(let f(x) = x in f 1 + 2) ;;" "shell").toOption.any
      (fun program => isLetSum (program.stmts.map Stmt.kind)) = true := by decide +kernel
  constructor
  · split at herror
    next d hd => rw [hd, beq_iff_eq.mp herror]
    next => cases herror
  · obtain ⟨program, hprogram, hrun⟩ := (Option.any_eq_true _ _).mp hrun
    obtain ⟨root, op, bs, body, scope, token, rhs, cell, block, hstmts⟩ := letSum_of_isLetSum hrun
    exact ⟨program, _, _, _, _, _, _, _, _, _, ok_of_toOption hprogram, hstmts⟩

end MiniMl
