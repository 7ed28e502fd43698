import MiniMl.Proofs.Parser.Lookahead

/-! # Productions before other tokens

Each production is steady in front of tokens that do not go on with it, if the reader of operands
is. Statements are steady in front of any tokens, since they end with a token of their own.
-/

namespace MiniMl.Parse

namespace Steady

variable {us vs : List Token} {calm : Prop} {α : Type} {op : Parse Term}

section Loops

variable {item : Parse α} {g : α → α} {separator : TokenKind}

theorem separated (hseparator : separator.continues = true)
    (hitem : Steady us vs (Resting us vs) 1 item) (b : Nat) :
    Steady us vs (Resting us vs) 1 (separated separator item b) := by
  induction b with
  | zero => exact hitem.seq fun x => pure _
  | succ b ih =>
    refine hitem.seq fun x => ?_
    refine tryConsume_resting hseparator (fun t => ?_) (pure _)
    exact ih.andThen fun xs => pure _

theorem separatedBy (hseparator : separator.continues = true) (hg : ∀ a, g a = a)
    (hagree : ∀ k, Agree id k 1 g item item) (hitem : Steady us vs (Resting us vs) 1 item) :
    Steady us vs (Resting us vs) 1 (separatedBy separator item) := by
  refine tokensAhead_seq (g := List.map g) (d := 1) (fun xs => ?_) (fun k b b' hb hb' => ?_)
    (separated hseparator hitem)
  · exact (List.map_congr_left fun a _ => hg a).trans (List.map_id xs)
  · refine Agree.separated ?_ (hagree k) hb hb'
    rintro rfl
    cases hseparator

theorem parenthesised (hg : ∀ a, g a = a) (hagree : ∀ k, Agree id k 1 g item item)
    (hitem : Steady us vs (Resting us vs) 1 item) :
    Steady us vs calm 1 (parenthesised item) := by
  refine tryConsume_seq (by decide) (fun t => pure _) ?_ (.inl Nat.one_pos)
  refine (expect (by decide)).andThen fun _ => ?_
  have hitems : Steady us vs (Resting us vs) 0 (Parse.separatedBy .comma item) :=
    (separatedBy (by decide) hg hagree hitem).weaken (Nat.zero_le 1)
  refine hitems.seq_reading (fun xs => ?_) Nat.one_pos
  exact (expect (by decide)).seq fun _ => pure _

end Loops

theorem constant : SteadyAhead us vs calm 1 constant := by
  refine advance_seq fun token => ?_
  cases Constant.ofToken token with
  | error problem => exact never fun p t q => throw_ok
  | ok value => exact (Still.typing _).steady.seq fun cell => pure _

end Steady

/-- A reader of operands that does the same whatever is behind them. -/
structure SteadyOperand (us vs : List Token) (op : Parse Term) : Prop where
  agree : ∀ k, Agree id k 1 (Term.relocate id) op op
  steady : Steady us vs (Resting us vs) 1 op

namespace SteadyOperand

variable {us vs : List Token} {calm : Prop} {op other : Parse Term}
  (hop : SteadyOperand us vs op)

include hop

theorem climb (b floor : Nat) (lhs : Term) :
    Steady us vs (Resting us vs) 0 (climb op b floor lhs) := by
  induction b generalizing floor lhs with
  | zero => exact .pure lhs
  | succ b ih =>
    refine .peekKind_resting (y := pure lhs) (fun kind => ?_) fun kind hrests => ?_
    · cases kind.power? with
      | none => exact .pure lhs
      | some power =>
        dsimp only
        split
        · exact .pure lhs
        · refine (Steady.seq_reading (c := 1) .advance (fun token => ?_) Nat.one_pos).weaken
            (Nat.zero_le _)
          refine hop.steady.seq fun first => ?_
          refine (ih _ first).seq fun rhs => ?_
          exact (Still.typing _).steady.seq fun cell => ih floor _
    · rw [TokenKind.power?_of_rests hrests]

theorem operators : Steady us vs (Resting us vs) 1 (operators op) := by
  refine hop.steady.seq fun first => ?_
  refine Steady.tokensAhead_seq (d := 0) Term.relocate_id (fun k b b' hb hb' => ?_)
    (hop.climb · 0 first)
  have hclimb := Agree.climb (hop.agree k) hb hb' 0 first
  rwa [Term.relocate_id] at hclimb

theorem sequenceWithin (b : Nat) : Steady us vs (Resting us vs) 1 (sequenceWithin op b) := by
  induction b with
  | zero => exact hop.operators
  | succ b ih =>
    refine hop.operators.seq fun first => ?_
    refine .tryConsume_resting (by decide) (fun token => ?_) (.pure first)
    exact ih.andThen fun second => .pure _

theorem sequence : Steady us vs (Resting us vs) 1 (sequence op) :=
  Steady.tokensAhead_seq Term.relocate_id
    (fun k _ _ hb hb' => Agree.sequenceWithin (hop.agree k) hb hb') hop.sequenceWithin

theorem chainArguments (b : Nat) : Steady us vs (Resting us vs) 0 (chainArguments op b) := by
  induction b with
  | zero => exact .pure []
  | succ b ih =>
    refine .peekKind_resting (y := pure []) (fun kind => ?_) fun kind hrests => ?_
    · split
      · exact hop.steady.andThen fun first => ih.seq fun others => .pure _
      · exact .pure []
    · rw [TokenKind.startsArgument_of_rests hrests]
      rfl

theorem application : SteadyAhead us vs (Resting us vs) 1 (application op) := by
  intro p hp hnext
  refine SteadyAt.currentScope_seq ?_
  refine Steady.advance_seq (fun name => ?_) hp hnext
  refine (Still.resolve name).steady.seq fun symbol => ?_
  refine (Still.signatureOf name symbol).steady.seq fun signature => ?_
  refine (Steady.tokensAhead_seq (fun ts => ?_) (fun k b b' hb hb' =>
    Agree.chainArguments (hop.agree k) hb hb') hop.chainArguments).seq fun args => ?_
  · exact (List.map_congr_left fun t _ => t.relocate_id).trans (List.map_id ts)
  · exact (Still.typing _).steady.seq fun cell => .pure _

/-- Whether a chain begins can be seen in front of what is behind it. -/
theorem chainOr (hother : Steady us vs (Resting us vs) 1 other) :
    Steady us vs (Resting us vs) 1 (chainOr op other) := by
  intro p hp
  have hchoice : SteadyAt us vs (Resting us vs) 1
      (if p.peek.kind = .identifier ∧ p.tokens.peekNext.kind.startsArgument then
        Parse.application op
      else do
        let scope ← Parse.currentScope
        let item ← other
        pure (.single p.peek item scope)) p := by
    split
    next hchain => exact hop.application hp (by rw [hchain.1]; decide)
    next =>
      have hsingle : Steady us vs (Resting us vs) 1
          (Parse.currentScope >>= fun scope => other >>= fun item =>
            pure (Exp.single p.peek item scope)) :=
        Still.currentScope.steady.seq fun scope => hother.seq fun item => .pure _
      exact hsingle hp
  refine hchoice.of_eq ?_ fun q p' hq hbefore hread => ?_
  · rw [Parse.chainOr, peek_bind, peekNext_bind]
  · have hle := hbefore.le
    rw [Parse.chainOr, peek_bind, peekNext_bind, hq.startsArgument hread hbefore,
      (hq.next (by omega)).1]

theorem exp : Steady us vs (Resting us vs) 1 (exp op) := hop.chainOr hop.sequence

theorem agreeExp (k : Nat) : Agree id k 1 (Exp.relocate id) (Parse.exp op) (Parse.exp op) :=
  Agree.exp (hop.agree k)

theorem signed : SteadyAhead us vs (Resting us vs) 1 (signed op) := by
  refine Steady.advance_seq fun token => ?_
  refine hop.steady.andThen fun inner => ?_
  exact (Still.typing _).steady.seq fun cell => .pure _

/-- A name can stand in front of whatever is not read as its arguments. -/
theorem name (hcalm : calm → Unopened us vs) : SteadyAhead us vs calm 1 (name op) := by
  refine Steady.advance_seq fun token => ?_
  refine (Still.resolve token).steady.seq fun symbol => ?_
  have hcall : Steady us vs calm 0
      (do
        let signature ← Parse.signatureOf token symbol
        let args ← Parse.parenthesised (Parse.exp op)
        let cell ← Parse.typing (Typing.call token signature (args.map Exp.typed))
        pure (Term.call ⟨token, symbol⟩ args cell)) := by
    refine (Still.signatureOf token symbol).steady.seq fun signature => ?_
    refine (Steady.parenthesised Exp.relocate_id hop.agreeExp hop.exp).andThen fun args => ?_
    exact (Still.typing _).steady.seq fun cell => .pure _
  refine .peekKind_unopened (y := pure (.var ⟨token, symbol⟩)) hcalm (fun kind => ?_)
    fun kind hkind => ?_
  · cases kind with
    | openParen => exact hcall
    | unit => exact hcall
    | _ => exact .pure _
  · cases kind
    all_goals first | rfl | cases hkind

theorem grouping : SteadyAhead us vs (Resting us vs) 1 (grouping op) := by
  refine Steady.advance_seq fun token => ?_
  refine hop.exp.andThen fun first => ?_
  refine .tryConsume_resting (by decide) (fun comma => ?_) ?_
  · refine hop.exp.andThen fun second => ?_
    refine (Steady.expect (by decide)).andThen fun _ => ?_
    exact (Still.typing _).steady.seq fun cell => .pure _
  · exact (Steady.expect (by decide)).andThen fun _ => .pure _

theorem projection : SteadyAhead us vs calm 2 (projection op) := by
  refine Steady.advance_seq fun token => ?_
  have hexp : Steady us vs (Resting us vs) 0 (Parse.exp op) := hop.exp.weaken (Nat.zero_le 1)
  refine (Steady.expect (by decide)).andThen fun _ => ?_
  refine hexp.seq_reading (fun first => ?_) Nat.one_pos
  refine (Steady.expect (by decide)).andThen fun _ => ?_
  refine hexp.seq_reading (fun second => ?_) Nat.one_pos
  exact (Steady.expect (by decide)).seq fun _ => .pure _

theorem branch : Steady us vs (Resting us vs) 1 (branch op) := by
  refine (Still.enterScope .block).steady.seq fun scope => ?_
  refine (hop.chainOr hop.operators).seq fun e => ?_
  exact Still.leaveScope.steady.seq fun _ => .pure _

theorem elseBranch : Steady us vs (Resting us vs) 0 (elseBranch op) := by
  refine .tryConsume_resting (by decide) (fun _ => ?_) (.pure none)
  exact (hop.branch.weaken (Nat.zero_le _)).map some

theorem conditional : SteadyAhead us vs (Resting us vs) 1 (conditional op) := by
  refine Steady.advance_seq fun token => ?_
  refine hop.exp.andThen fun condition => ?_
  refine (Steady.expect (by decide)).andThen fun _ => ?_
  refine hop.branch.andThen fun first => ?_
  refine hop.elseBranch.seq fun second => ?_
  refine (Still.typing _).steady.seq fun cell => ?_
  refine (Still.appendToCurrent first.2).steady.seq fun _ => ?_
  cases second with
  | none => exact .pure _
  | some second => exact (Still.appendToCurrent second.2).steady.seq fun _ => .pure _

theorem loop : SteadyAhead us vs (Resting us vs) 1 (loop op) := by
  refine Steady.advance_seq fun token => ?_
  refine hop.exp.andThen fun condition => ?_
  refine (Steady.expect (by decide)).andThen fun _ => ?_
  refine (Still.enterScope .block).steady.seq fun scope => ?_
  refine hop.exp.andThen fun body => ?_
  refine Still.leaveScope.steady.seq fun _ => ?_
  refine (Steady.expect (by decide)).andThen fun _ => ?_
  refine (Still.typing _).steady.seq fun cell => ?_
  exact (Still.appendToCurrent scope).steady.seq fun _ => .pure _

theorem function (name : Token) (isRec : Bool) :
    Steady us vs (Resting us vs) 1 (function op name isRec) := by
  refine (Steady.parenthesised (g := Token.relocate id) (fun _ => rfl)
    (fun k => Agree.expect .identifier (by decide))
    (Steady.expect (by decide))).seq fun tokens => ?_
  refine (Still.typing _).steady.seq fun signature => ?_
  refine (Still.newFunction name signature).steady.seq fun symbol => ?_
  refine .defineWhen _ symbol ?_
  refine (Still.enterScope .function).steady.seq fun scope => ?_
  refine (Still.newVariables tokens signature.params).steady.seq fun params => ?_
  refine (Still.defineAll params).steady.seq fun _ => ?_
  refine (Steady.expect (by decide)).andThen fun _ => ?_
  refine hop.exp.andThen fun body => ?_
  refine Still.leaveScope.steady.seq fun _ => ?_
  refine (Still.typing _).steady.seq fun _ => ?_
  refine .defineWhen _ symbol ?_
  exact (Still.defineTag symbol).steady.seq fun _ => .pure _

theorem binding (isRec : Bool) : Steady us vs (Resting us vs) 2 (binding op isRec) := by
  refine (Steady.expect (by decide)).seq fun name => ?_
  have hvalue : Steady us vs (Resting us vs) 1
      (do
        let _ ← Parse.expect .assignment
        let body ← Parse.exp op
        let symbol ← Parse.newVariable name body.cell
        Parse.define symbol
        pure (Binding.value symbol body)) := by
    refine (Steady.expect (by decide)).seq fun _ => ?_
    refine hop.exp.andThen fun body => ?_
    refine (Still.newVariable name body.cell).steady.seq fun symbol => ?_
    exact (Still.define symbol).steady.seq fun _ => .pure _
  refine .peekKind_seq (fun kind => ?_) (.inl Nat.one_pos)
  cases kind with
  | openParen => exact hop.function name isRec
  | unit => exact hop.function name isRec
  | _ => exact hvalue

theorem bindings (isRec : Bool) : Steady us vs (Resting us vs) 1 (bindings op isRec) :=
  .separatedBy (by decide) Binding.relocate_id (fun k => Agree.binding (hop.agree k) isRec)
    ((hop.binding isRec).weaken (by decide))

theorem finishLet (token : Token) (bs : List Binding) (scope : ScopeId) :
    Steady us vs (Resting us vs) 1 (finishLet op token bs scope) := by
  refine (Steady.expect (by decide)).seq fun _ => ?_
  refine hop.exp.andThen fun body => ?_
  refine Still.leaveScope.steady.seq fun _ => ?_
  exact (Still.appendToCurrent scope).steady.seq fun _ => .pure _

theorem letBindings {α : Type} {calm : Prop} {m : ScopeId → List Binding → Parse α}
    (hm : ∀ scope bs, Steady us vs calm 1 (m scope bs)) :
    Steady us vs calm 2 (do
      let isRec := (← Parse.tryConsume .recWord).isSome
      let scope ← Parse.enterScope .block
      let bs ← Parse.bindings op isRec
      m scope bs) := by
  refine (Steady.tryConsume (by decide)).seq_reading (fun recToken => ?_) Nat.two_pos
  refine (Still.enterScope .block).steady.seq fun scope => ?_
  exact (hop.bindings _).seq_reading (hm scope) Nat.one_lt_two

theorem letIn : SteadyAhead us vs (Resting us vs) 1 (letIn op) := by
  refine Steady.advance_seq fun token => ?_
  exact (hop.letBindings fun scope bs => hop.finishLet token bs scope).weaken (Nat.zero_le _)

theorem operandStep : Steady us vs (Resting us vs) 1 (operandStep op) := by
  intro p hp
  refine SteadyAt.peekKind_seq ?_ (.inl Nat.one_pos)
  cases hkind : p.peek.kind with
  | identifier => exact hop.name Resting.unopened hp (by rw [hkind]; decide)
  | int | float | bool | string | unit => exact Steady.constant hp (by rw [hkind]; decide)
  | plus | dash => exact hop.signed hp (by rw [hkind]; decide)
  | openParen => exact hop.grouping hp (by rw [hkind]; decide)
  | fstWord | sndWord =>
    exact (hop.projection hp (by rw [hkind]; decide)).weaken (Nat.le_succ 1)
  | ifWord => exact hop.conditional hp (by rw [hkind]; decide)
  | whileWord => exact hop.loop hp (by rw [hkind]; decide)
  | letWord => exact hop.letIn hp (by rw [hkind]; decide)
  | _ => exact fun t q h => absurd h unexpected_ok

theorem next : SteadyOperand us vs (Parse.operandStep op) where
  agree := fun k => (Agree.operandStep (hop.agree k)).upTo (Nat.le_succ k)
  steady := hop.operandStep

omit hop

theorem operandWithin (b : Nat) : SteadyOperand us vs (operandWithin b) :=
  operand_induction (P := SteadyOperand us vs)
    ⟨fun _ => Agree.unexpected, .never fun _ _ _ => unexpected_ok⟩ (fun _ hop => hop.next) b

theorem operand : SteadyOperand us vs operand where
  agree := fun _ => Agree.operand
  steady := Steady.tokensAhead_seq Term.relocate_id
    (fun _ _ _ hb hb' => Agree.operandWithin hb hb') fun b => (operandWithin b).steady

end SteadyOperand

namespace Steady

variable {us vs : List Token}

theorem letStmt (token : Token) (block : ScopeId) : Steady us vs True 1 (letStmt token block) := by
  refine Steady.weaken (d := 2) ?_ (by decide)
  refine advance.seq_reading (fun _ => ?_) Nat.two_pos
  refine SteadyOperand.operand.letBindings fun scope bs => ?_
  refine peekKind_seq (fun kind => ?_) (.inl Nat.one_pos)
  split
  · refine ((SteadyOperand.operand.finishLet token bs scope).weaken (Nat.zero_le _)).seq_reading
      (fun item => ?_) Nat.one_pos
    exact (expect (by decide)).seq fun _ => pure _
  · refine Still.leaveScope.steady.seq fun _ => ?_
    refine (expect (by decide)).seq fun _ => ?_
    exact (Still.defineAllAtTop bs).steady.seq fun _ => pure _

theorem expStmt (token : Token) (block : ScopeId) : Steady us vs True 1 (expStmt token block) := by
  refine (SteadyOperand.operand.exp.weaken (Nat.zero_le _)).seq_reading (fun e => ?_) Nat.one_pos
  refine (expect (by decide)).seq fun _ => ?_
  cases e.var? with
  | none => exact pure _
  | some use => exact pure _

/-- A statement ends with its double semicolon, so whatever is behind it does not matter. -/
theorem stmt : Steady us vs True 1 stmt := by
  intro p hp
  refine SteadyAt.peek_seq ?_ Nat.one_pos
  refine ((Still.enterScope .block).steady.seq fun block => thenLeaveScope ?_) hp
  split
  · exact letStmt _ block
  · exact expStmt _ block

end Steady

end MiniMl.Parse
