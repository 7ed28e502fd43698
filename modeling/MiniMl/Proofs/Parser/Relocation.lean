import MiniMl.Proofs.Parser.Alignment

/-! # Parsing at other locations

Each production does the same in two layouts, whatever the bounds of its loops are, if the reader of
operands does. The productions that begin with a token of their own are said where it comes next.
-/

namespace MiniMl

variable {f : Location → Location}

namespace Parse

namespace Agree

variable {α : Type} {p : Parser} {k c : Nat} {g : α → α}

section Loops

variable {item item' : Parse α} {separator : TokenKind}

/-- Each turn reads an item, so bounds that cover the tokens left never stop the loop. -/
theorem separated (hseparator : separator ≠ .endOfInput) (hitem : Agree f k 1 g item item')
    {b b' : Nat} (hb : k ≤ b) (hb' : k ≤ b') :
    Agree f k 1 (List.map g) (separated separator item b) (separated separator item' b') := by
  induction b generalizing k b' with
  | zero =>
    cases b' with
    | zero => exact nothing_left hitem hb
    | succ b' => exact nothing_left hitem hb
  | succ b ih =>
    cases b' with
    | zero => exact nothing_left hitem hb'
    | succ b' =>
      refine hitem.seq fun x j hj => ?_
      refine tryConsume_seq hseparator (fun t i hi => ?_) (pure rfl)
      refine (ih (hitem.upTo (by omega)) (by omega) (by omega)).seq fun xs _ _ => ?_
      exact pure rfl

theorem separatedBy (hseparator : separator ≠ .endOfInput) (hitem : Agree f k 1 g item item') :
    Agree f k 1 (List.map g) (separatedBy separator item) (separatedBy separator item') :=
  tokensAhead_seq fun _ _ _ hj hb hb' => separated hseparator (hitem.upTo hj) hb hb'

theorem parenthesised (hitem : Agree f k 1 g item item') :
    Agree f k 0 (List.map g) (parenthesised item) (parenthesised item') := by
  refine tryConsume_seq (by decide) (fun t j hj => pure rfl) ?_
  refine (expect .openParen (by decide)).seq fun _ j hj => ?_
  refine (separatedBy (by decide) (hitem.upTo (by omega))).seq fun xs i hi => ?_
  exact (expect .closeParen (by decide)).seq fun _ _ _ => pure rfl

end Loops

section Expressions

variable {op op' : Parse Term} {b b' : Nat}

theorem climb_at_end (b floor : Nat) (lhs : Term) (p : Parser) (hend : p.peek.kind = .endOfInput) :
    Parse.climb op b floor lhs p = .ok lhs p := by
  cases b with
  | zero => rfl
  | succ b =>
    rw [Parse.climb, peekKind_bind, hend]
    rfl

theorem chainArguments_at_end (b : Nat) (p : Parser) (hend : p.peek.kind = .endOfInput) :
    Parse.chainArguments op b p = .ok [] p := by
  cases b with
  | zero => rfl
  | succ b =>
    rw [Parse.chainArguments, peekKind_bind, hend]
    rfl

theorem constant : AgreeAhead f k 1 (Term.relocate f) constant constant := by
  refine advance_seq fun token => ?_
  rw [Constant.ofToken_relocate]
  cases Constant.ofToken token with
  | error problem => exact throw rfl
  | ok value => exact (typing (Typing.relocate_new f _).symm).seq fun cell _ _ => pure rfl

def relocateBranch (f : Location → Location) (b : Exp × ScopeId) : Exp × ScopeId :=
  (b.1.relocate f, b.2)

/-! Over readers of operands that agree while at most `k` tokens are left. -/

variable (hop : Agree f k 1 (Term.relocate f) op op')

include hop

theorem climb (hb : k ≤ b) (hb' : k ≤ b') (floor : Nat) (lhs : Term) :
    Agree f k 0 (Term.relocate f) (climb op b floor lhs) (climb op' b' floor (lhs.relocate f)) := by
  induction b generalizing k b' floor lhs with
  | zero => exact at_end hb (climb_at_end _ _ _) (climb_at_end _ _ _) rfl
  | succ b ih =>
    cases b' with
    | zero => exact at_end hb' (climb_at_end _ _ _) (climb_at_end _ _ _) rfl
    | succ b' =>
      refine peekKind.seq fun kind j hj => ?_
      cases kind.power? with
      | none => exact pure rfl
      | some power =>
        dsimp only
        split
        · exact pure rfl
        -- The operator and its right operand are read before the loop goes on.
        · refine advance.seq fun token i hi => ?_
          have hop' := hop.upTo (by omega : i ≤ k)
          refine hop'.seq fun first i₁ h₁ => ?_
          have hop₁ := hop.upTo (by omega : i₁ ≤ k)
          refine (ih hop₁ (by omega) (by omega) _ first).seq fun rhs i₂ h₂ => ?_
          refine (typing ?_).seq fun cell i₃ h₃ => ?_
          · rw [Term.relocate_typed, Term.relocate_typed, Typing.binary_relocate]
          · exact ih (hop.upTo (by omega)) (by omega) (by omega) _ (.binary token lhs rhs cell)

theorem climbFrom (floor : Nat) (lhs : Term) :
    Agree f k 0 (Term.relocate f) (climbFrom op floor lhs) (climbFrom op' floor (lhs.relocate f)) :=
  tokensAhead_seq fun _ _ _ hj hb hb' => climb (hop.upTo hj) hb hb' floor lhs

theorem operators : Agree f k 1 (Term.relocate f) (operators op) (operators op') :=
  hop.seq fun first _ hj => climbFrom (hop.upTo (by omega)) 0 first

theorem sequenceWithin (hb : k ≤ b) (hb' : k ≤ b') :
    Agree f k 1 (Term.relocate f) (sequenceWithin op b) (sequenceWithin op' b') := by
  -- The last turn is brought to the form of the others, with a step behind the item.
  have hzero : ∀ o : Parse Term, Parse.sequenceWithin o 0 = Parse.operators o >>= Pure.pure :=
    fun _ => (bind_pure _).symm
  induction b generalizing k b' with
  | zero =>
    rw [hzero]
    cases b' with
    | zero =>
      rw [hzero]
      exact nothing_left (operators hop) hb
    | succ b' => exact nothing_left (operators hop) hb
  | succ b ih =>
    cases b' with
    | zero =>
      rw [hzero]
      exact nothing_left (operators hop) hb'
    | succ b' =>
      refine (operators hop).seq fun first j hj => ?_
      refine tryConsume_seq (by decide) (fun token i hi => ?_) (pure rfl)
      refine (ih (hop.upTo (by omega)) (by omega) (by omega)).seq fun second _ _ => ?_
      exact pure rfl

theorem sequence : Agree f k 1 (Term.relocate f) (sequence op) (sequence op') :=
  tokensAhead_seq fun _ _ _ hj hb hb' => sequenceWithin (hop.upTo hj) hb hb'

theorem chainArguments (hb : k ≤ b) (hb' : k ≤ b') :
    Agree f k 0 (List.map (Term.relocate f)) (chainArguments op b) (chainArguments op' b') := by
  induction b generalizing k b' with
  | zero => exact at_end hb (chainArguments_at_end _) (chainArguments_at_end _) rfl
  | succ b ih =>
    cases b' with
    | zero => exact at_end hb' (chainArguments_at_end _) (chainArguments_at_end _) rfl
    | succ b' =>
      refine peekKind.seq fun kind j hj => ?_
      split
      · refine (hop.upTo (by omega : j ≤ k)).seq fun first i hi => ?_
        refine (ih (hop.upTo (by omega)) (by omega) (by omega)).seq fun others _ _ => ?_
        exact pure rfl
      · exact pure rfl

theorem application : AgreeAhead f k 1 (Exp.relocate f) (application op) (application op') := by
  intro p q hp hnext hleft
  rw [Parse.application, Parse.application, currentScope_bind, currentScope_bind, hp.scope]
  refine advance_seq (fun name => ?_) hp hnext hleft
  refine (resolve name).seq fun symbol j hj => ?_
  refine (signatureOf name symbol).seq fun signature j hj => ?_
  refine (tokensAhead_seq fun i b b' hi hb hb' =>
    chainArguments (hop.upTo (by omega : i ≤ k)) hb hb').seq fun args i hi => ?_
  refine (typing ?_).seq fun cell _ _ => ?_
  · rw [Term.map_relocate_typed, Typing.call_relocate]
  · exact pure (by rw [Exp.relocate, Term.relocateList_eq]; rfl)

theorem chainOr {other other' : Parse Term} (hother : Agree f k 1 (Term.relocate f) other other') :
    Agree f k 1 (Exp.relocate f) (chainOr op other) (chainOr op' other') := by
  intro p q hp hleft
  rw [Parse.chainOr, Parse.chainOr, peek_bind, peek_bind, peekNext_bind, peekNext_bind, hp.peek,
    hp.tokens.peekNext, Token.relocate_kind, Token.relocate_kind]
  split
  next hchain =>
    exact application hop hp (by rw [hchain.1]; decide) (by omega)
  next =>
    refine (currentScope.seq fun scope j hj => ?_ : Agree f k 1 _ _ _) hp hleft
    exact (hother.upTo hj).seq fun item _ _ => pure rfl

theorem exp : Agree f k 1 (Exp.relocate f) (exp op) (exp op') := chainOr hop (sequence hop)

theorem signed : AgreeAhead f k 1 (Term.relocate f) (signed op) (signed op') := by
  refine advance_seq fun token => ?_
  refine (hop.atLeast (Nat.zero_le _)).seq fun inner j hj => ?_
  refine (typing ?_).seq fun cell _ _ => pure rfl
  rw [Term.relocate_typed, Typing.unary_relocate]

theorem name : AgreeAhead f k 1 (Term.relocate f) (name op) (name op') := by
  refine advance_seq fun token => ?_
  refine (resolve token).seq fun symbol j hj => ?_
  refine peekKind.seq fun kind i hi => ?_
  -- Both tokens that open the arguments lead to the same call.
  have hcall : Agree f i 0 (Term.relocate f)
      (do
        let signature ← Parse.signatureOf token symbol
        let args ← Parse.parenthesised (Parse.exp op)
        let cell ← Parse.typing (Typing.call token signature (args.map Exp.typed))
        Pure.pure (.call ⟨token, symbol⟩ args cell))
      (do
        let signature ← Parse.signatureOf (token.relocate f) (symbol.relocate f)
        let args ← Parse.parenthesised (Parse.exp op')
        let cell ← Parse.typing (Typing.call (token.relocate f) signature (args.map Exp.typed))
        Pure.pure (.call ⟨token.relocate f, symbol.relocate f⟩ args cell)) := by
    refine (signatureOf token symbol).seq fun signature i₁ h₁ => ?_
    refine (parenthesised (exp (hop.upTo (by omega : i₁ ≤ k)))).seq fun args i₂ h₂ => ?_
    refine (typing ?_).seq fun cell _ _ => ?_
    · rw [Exp.map_relocate_typed, Typing.call_relocate]
    · exact pure (by rw [Term.relocate, Exp.relocateList_eq]; rfl)
  cases kind with
  | openParen => exact hcall
  | unit => exact hcall
  | _ => exact pure rfl

theorem grouping : AgreeAhead f k 1 (Term.relocate f) (grouping op) (grouping op') := by
  refine advance_seq fun token => ?_
  refine (exp hop).seq fun first j hj => ?_
  refine tryConsume_seq (by decide) (fun comma i hi => ?_) ?_
  · refine (exp (hop.upTo (by omega))).seq fun second _ _ => ?_
    refine (expect .closeParen (by decide)).seq fun _ _ _ => ?_
    exact (typing (Typing.relocate_new f _).symm).seq fun cell _ _ => pure rfl
  · exact (expect .closeParen (by decide)).seq fun _ _ _ => pure rfl

theorem projection : AgreeAhead f k 1 (Term.relocate f) (projection op) (projection op') := by
  refine advance_seq fun token => ?_
  refine (expect .openParen (by decide)).seq fun _ i₁ h₁ => ?_
  refine (exp (hop.upTo (by omega))).seq fun first i₂ h₂ => ?_
  refine (expect .comma (by decide)).seq fun _ i₃ h₃ => ?_
  refine (exp (hop.upTo (by omega))).seq fun second i₄ h₄ => ?_
  exact (expect .closeParen (by decide)).seq fun _ _ _ => pure rfl

theorem branch : Agree f k 1 (relocateBranch f) (branch op) (branch op') := by
  refine (enterScope .block).seq fun scope j hj => ?_
  have hop' := hop.upTo (by omega : j ≤ k)
  refine (chainOr hop' (operators hop')).seq fun e _ _ => ?_
  exact leaveScope.seq fun _ _ _ => pure rfl

theorem elseBranch :
    Agree f k 0 (Option.map (relocateBranch f)) (elseBranch op) (elseBranch op') := by
  refine tryConsume_seq (by decide) (fun token j hj => ?_) (pure rfl)
  exact ((branch (hop.upTo (by omega))).atLeast (Nat.zero_le _)).map some fun _ => rfl

theorem conditional : AgreeAhead f k 1 (Term.relocate f) (conditional op) (conditional op') := by
  refine advance_seq fun token => ?_
  refine (exp hop).seq fun condition i₁ h₁ => ?_
  refine (expect .thenWord (by decide)).seq fun _ i₂ h₂ => ?_
  refine (branch (hop.upTo (by omega))).seq fun first i₃ h₃ => ?_
  refine (elseBranch (hop.upTo (by omega : i₃ ≤ k))).seq fun second i₄ h₄ => ?_
  refine (typing ?_).seq fun cell _ _ => ?_
  · have hsecond : (second.map (relocateBranch f)).map (fun b => b.1.typed) =
        (second.map fun b => b.1.typed).map (Typed.relocate f) := by
      cases second with
      | none => rfl
      | some second => exact congrArg some (Exp.relocate_typed f second.1)
    rw [Exp.relocate_typed, Exp.relocate_typed, hsecond, Typing.conditional_relocate]
  · refine (appendToCurrent first.2).seq fun _ _ _ => ?_
    cases second with
    | none => exact pure rfl
    | some second => exact (appendToCurrent second.2).seq fun _ _ _ => pure rfl

theorem loop : AgreeAhead f k 1 (Term.relocate f) (loop op) (loop op') := by
  refine advance_seq fun token => ?_
  refine (exp hop).seq fun condition i₁ h₁ => ?_
  refine (expect .doWord (by decide)).seq fun _ i₂ h₂ => ?_
  refine (enterScope .block).seq fun scope i₃ h₃ => ?_
  refine (exp (hop.upTo (by omega))).seq fun body i₄ h₄ => ?_
  refine leaveScope.seq fun _ i₅ h₅ => ?_
  refine (expect .doneWord (by decide)).seq fun _ i₆ h₆ => ?_
  refine (typing ?_).seq fun cell _ _ => ?_
  · rw [Exp.relocate_typed, Exp.relocate_typed, Typing.loop_relocate]
  · exact (appendToCurrent scope).seq fun _ _ _ => pure rfl

theorem function (name : Token) (isRec : Bool) :
    Agree f k 0 (Binding.relocate f) (function op name isRec)
      (function op' (name.relocate f) isRec) := by
  refine (parenthesised (expect .identifier (by decide))).seq fun tokens i₁ h₁ => ?_
  rw [List.length_map]
  refine (typing (Typing.signature_relocate f _).symm).seq fun signature i₂ h₂ => ?_
  refine (newFunction name signature).seq fun symbol i₃ h₃ => ?_
  refine defineWhen _ symbol ?_
  refine (enterScope .function).seq fun scope i₄ h₄ => ?_
  refine (newVariables tokens signature.params).seq fun params i₅ h₅ => ?_
  refine (defineAll params).seq fun _ i₆ h₆ => ?_
  refine (expect .assignment (by decide)).seq fun _ i₇ h₇ => ?_
  refine (exp (hop.upTo (by omega))).seq fun body i₈ h₈ => ?_
  refine leaveScope.seq fun _ i₉ h₉ => ?_
  refine (typing ?_).seq fun _ _ _ => ?_
  · rw [Exp.relocate_typed, Typing.functionBody_relocate]
  · refine defineWhen _ symbol ?_
    exact (defineTag symbol).seq fun _ _ _ => pure rfl

theorem binding (isRec : Bool) :
    Agree f k 1 (Binding.relocate f) (binding op isRec) (binding op' isRec) := by
  refine (expect .identifier (by decide)).seq fun name i₁ h₁ => ?_
  refine peekKind.seq fun kind i₂ h₂ => ?_
  have hop₂ := hop.upTo (by omega : i₂ ≤ k)
  have hvalue : Agree f i₂ 0 (Binding.relocate f)
      (do
        let _ ← Parse.expect .assignment
        let body ← Parse.exp op
        let symbol ← Parse.newVariable name body.cell
        Parse.define symbol
        Pure.pure (.value symbol body))
      (do
        let _ ← Parse.expect .assignment
        let body ← Parse.exp op'
        let symbol ← Parse.newVariable (name.relocate f) body.cell
        Parse.define symbol
        Pure.pure (.value symbol body)) := by
    refine (expect .assignment (by decide)).seq fun _ i₃ h₃ => ?_
    refine (exp (hop₂.upTo (by omega))).seq fun body i₄ h₄ => ?_
    rw [Exp.relocate_cell]
    refine (newVariable name body.cell).seq fun symbol i₅ h₅ => ?_
    exact (define symbol).seq fun _ _ _ => pure rfl
  cases kind with
  | openParen => exact function hop₂ name isRec
  | unit => exact function hop₂ name isRec
  | _ => exact hvalue

theorem bindings (isRec : Bool) :
    Agree f k 1 (List.map (Binding.relocate f)) (bindings op isRec) (bindings op' isRec) :=
  separatedBy (by decide) (binding hop isRec)

theorem finishLet (token : Token) (bindings : List Binding) (scope : ScopeId) :
    Agree f k 1 (Term.relocate f) (finishLet op token bindings scope)
      (finishLet op' (token.relocate f) (bindings.map (Binding.relocate f)) scope) := by
  refine (expect .inWord (by decide)).seq fun _ i₁ h₁ => ?_
  refine (exp (hop.upTo (by omega))).seq fun body i₂ h₂ => ?_
  refine leaveScope.seq fun _ i₃ h₃ => ?_
  refine (appendToCurrent scope).seq fun _ i₄ h₄ => pure ?_
  rw [Term.relocate, Binding.relocateList_eq]

theorem letIn : AgreeAhead f k 1 (Term.relocate f) (letIn op) (letIn op') := by
  refine advance_seq fun token => ?_
  refine (tryConsume .recWord).seq fun recToken i₁ h₁ => ?_
  rw [Option.isSome_map]
  refine (enterScope .block).seq fun scope i₂ h₂ => ?_
  refine (bindings (hop.upTo (by omega)) _).seq fun bs i₃ h₃ => ?_
  exact (finishLet (hop.upTo (by omega)) token bs scope).atLeast (Nat.zero_le _)

theorem operandStep : Agree f (k + 1) 1 (Term.relocate f) (operandStep op) (operandStep op') := by
  intro p q hp hleft
  rw [Parse.operandStep, Parse.operandStep, peekKind_bind, peekKind_bind, hp.peek,
    Token.relocate_kind]
  cases hkind : p.peek.kind with
  | identifier => exact name hop hp (by rw [hkind]; decide) hleft
  | int | float | bool | string | unit => exact constant hp (by rw [hkind]; decide) hleft
  | plus | dash => exact signed hop hp (by rw [hkind]; decide) hleft
  | openParen => exact grouping hop hp (by rw [hkind]; decide) hleft
  | fstWord | sndWord => exact projection hop hp (by rw [hkind]; decide) hleft
  | ifWord => exact conditional hop hp (by rw [hkind]; decide) hleft
  | whileWord => exact loop hop hp (by rw [hkind]; decide) hleft
  | letWord => exact letIn hop hp (by rw [hkind]; decide) hleft
  | _ => exact unexpected hp hleft

end Expressions

theorem operandWithin_at_end (b : Nat) (hend : p.peek.kind = .endOfInput) :
    Parse.operandWithin b p = Parse.unexpected p := by
  cases b with
  | zero => rfl
  | succ b => rw [Parse.operandWithin, Parse.operandStep, peekKind_bind, hend]

theorem operandWithin_nothing_left {b b' : Nat} (hk : k ≤ 0) :
    Agree f k c (Term.relocate f) (operandWithin b) (operandWithin b') := by
  intro p q hp hleft
  have hend := hp.at_end (Nat.le_zero.mp (Nat.le_trans hleft hk))
  rw [operandWithin_at_end b hend,
    operandWithin_at_end b' (by rw [hp.peek, Token.relocate_kind, hend])]
  exact unexpected hp hleft

/-- The depth of operands is bounded by the tokens that are left: one is read for each level. -/
theorem operandWithin {b b' : Nat} (hb : k ≤ b) (hb' : k ≤ b') :
    Agree f k 1 (Term.relocate f) (operandWithin b) (operandWithin b') := by
  induction b generalizing k b' with
  | zero => exact operandWithin_nothing_left hb
  | succ b ih =>
    cases b' with
    | zero => exact operandWithin_nothing_left hb'
    | succ b' =>
      have hinner : Agree f (k - 1) 1 (Term.relocate f) (Parse.operandWithin b)
          (Parse.operandWithin b') := ih (by omega) (by omega)
      exact (operandStep hinner).upTo (by omega)

theorem operand : Agree f k 1 (Term.relocate f) operand operand :=
  tokensAhead_seq fun _ _ _ _ hb hb' => operandWithin hb hb'

theorem defineAtTop (b : Binding) :
    Agree f k 0 (fun a => a) (defineAtTop b) (defineAtTop (b.relocate f)) := by
  cases b with
  | value symbol body => exact defineIn _ symbol
  | function symbol params body isRec scope =>
    exact (defineIn _ symbol).seq fun _ _ _ => defineTagIn _ symbol

theorem defineAllAtTop (bs : List Binding) :
    Agree f k 0 (fun a => a) (defineAllAtTop bs)
      (defineAllAtTop (bs.map (Binding.relocate f))) := by
  induction bs generalizing k with
  | nil => exact pure rfl
  | cons b bs ih => exact (defineAtTop b).seq fun _ _ _ => ih

theorem letStmt (token : Token) (block : ScopeId) :
    Agree f k 1 (List.map (Stmt.relocate f)) (letStmt token block)
      (letStmt (token.relocate f) block) := by
  refine advance.seq fun _ i₁ h₁ => ?_
  refine (tryConsume .recWord).seq fun recToken i₂ h₂ => ?_
  rw [Option.isSome_map]
  refine (enterScope .block).seq fun scope i₃ h₃ => ?_
  refine (bindings operand _).seq fun bs i₄ h₄ => ?_
  refine peekKind.seq fun kind i₅ h₅ => ?_
  split
  · refine (finishLet operand token bs scope).seq fun item i₆ h₆ => ?_
    exact (expect .doubleSemicolon (by decide)).seq fun _ _ _ => pure rfl
  · refine leaveScope.seq fun _ i₆ h₆ => ?_
    refine (expect .doubleSemicolon (by decide)).seq fun _ i₇ h₇ => ?_
    refine (defineAllAtTop bs).seq fun _ _ _ => pure ?_
    simp [Stmt.relocate, StmtKind.relocate]

theorem expStmt (token : Token) (block : ScopeId) :
    Agree f k 1 (List.map (Stmt.relocate f)) (expStmt token block)
      (expStmt (token.relocate f) block) := by
  refine (exp operand).seq fun e i₁ h₁ => ?_
  refine (expect .doubleSemicolon (by decide)).seq fun _ i₂ h₂ => ?_
  rw [Exp.relocate_var?]
  cases e.var? with
  | none => exact pure rfl
  | some use => exact pure rfl

theorem stmt : Agree f k 1 (List.map (Stmt.relocate f)) stmt stmt := by
  refine peek.seq fun token i₁ h₁ => ?_
  refine (enterScope .block).seq fun block i₂ h₂ => thenLeaveScope ?_
  rw [Token.relocate_kind]
  split
  · exact letStmt token block
  · exact expStmt token block

theorem stmts_at_end (b : Nat) (p : Parser) (hend : p.peek.kind = .endOfInput) :
    Parse.stmts b p = .ok [] p := by
  cases b with
  | zero => rfl
  | succ b =>
    have hdone : p.hasTokens = false := by
      simp only [Parser.hasTokens, TokenSequence.atEnd, test_eq, hend, decide_true, Bool.not_true]
    rw [Parse.stmts, hasTokens_bind, hdone]
    rfl

theorem stmts {b b' : Nat} (hb : k ≤ b) (hb' : k ≤ b') :
    Agree f k 0 (List.map (Stmt.relocate f)) (stmts b) (stmts b') := by
  induction b generalizing k b' with
  | zero => exact at_end hb (stmts_at_end _) (stmts_at_end _) rfl
  | succ b ih =>
    cases b' with
    | zero => exact at_end hb' (stmts_at_end _) (stmts_at_end _) rfl
    | succ b' =>
      refine hasTokens.seq fun more i₁ h₁ => ?_
      split
      · refine tryConsume_seq (by decide) (fun token i₂ h₂ => ih (by omega) (by omega)) ?_
        refine stmt.seq fun first i₂ h₂ => ?_
        refine (ih (by omega) (by omega)).seq fun others _ _ => pure ?_
        rw [List.map_append]
      · exact pure rfl

end Agree

end Parse

namespace Parser

theorem Relaid.ofTokens {s t : TokenSequence} (hst : s.Relaid f t) :
    (ofTokens s).Relaid f (ofTokens t) := by
  refine ⟨hst, ?_, rfl, rfl, rfl⟩
  have hempty : Arena.empty.relocate f = Arena.empty := by simp [Arena.relocate, Arena.empty]
  change _ = (Arena.empty.create .file none).2.relocate f
  rw [Arena.relocate_create, hempty]
  rfl

end Parser

def relocateOutcome (f : Location → Location) :
    Except Diagnostic Program → Except Diagnostic Program
  | .ok p => .ok (p.relocate f)
  | .error d => .error (d.relocate f)

/-- Of tokens laid out in another way the parser makes the same program, or finds the same problem,
in the new places. -/
theorem parse_relocate {s t : TokenSequence} (hst : s.Relaid f t) :
    parse t = relocateOutcome f (parse s) := by
  have hp := Parser.Relaid.ofTokens hst
  have hrun := Parse.Agree.stmts (Parser.ofTokens s).left_le_ahead
    (hp.left_eq ▸ (Parser.ofTokens t).left_le_ahead) hp (Nat.le_refl _)
  change Parse.Same f _ 0 _ (Parse.stmts s.ahead.length (Parser.ofTokens s))
    (Parse.stmts t.ahead.length (Parser.ofTokens t)) at hrun
  unfold parse
  generalize Parse.stmts s.ahead.length (Parser.ofTokens s) = r,
    Parse.stmts t.ahead.length (Parser.ofTokens t) = r' at hrun
  cases hrun with
  | error hde => rw [hde]; rfl
  | ok hab hrelaid hleft =>
    dsimp only
    rw [hab, hrelaid.arena, hrelaid.store]
    rfl

end MiniMl
