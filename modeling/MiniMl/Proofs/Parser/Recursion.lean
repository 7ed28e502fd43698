import Mathlib.Logic.Function.Iterate
import MiniMl.Proofs.Parser.Progress

/-! # Recursion on the tokens left

Each loop and each recursion of the grammar is a turn that comes around again. A token is read
before it does, so what stands below as many turns as tokens are left is never reached.
-/

namespace MiniMl.Parse

variable {p q : Parser} {k c d : Nat} {α β ι : Type}

/-- A turn reads a token before it comes around again: it does the same with `k` tokens left if what
comes around does the same with fewer. -/
def Guarded (c : Nat) (turn : (ι → Parse α) → ι → Parse α) : Prop :=
  ∀ ⦃k y z⦄, (∀ i, Alike (k - 1) c (y i) (z i)) → ∀ i, Alike k c (turn y i) (turn z i)

/-- The recursion that comes around in `x` ends: after as many turns as tokens are left, and one
more for the end of the input, it does not matter what would come next. -/
structure Grounded (turn : (ι → Parse α) → ι → Parse α) (x : ι → Parse α) : Prop where
  fixed : ∀ i p, p.tokens.Ended → turn x i p = x i p
  depth : ∀ below n i p, p.tokens.Ended → p.left ≤ n → turn^[n + 1] below i p = x i p

theorem Alike.trans {x y z : Parse α} (hxy : Alike k c x y) (hyz : Alike k d y z) :
    Alike k c x z :=
  fun _ hp hleft => ⟨(hyz hp hleft).same.trans (hxy hp hleft).same, (hxy hp hleft).ran⟩

namespace Guarded

variable {turn : (ι → Parse α) → ι → Parse α} {x : ι → Parse α} {bounded : Nat → ι → Parse α}

/-- With a bound that covers the tokens left one turn more changes nothing. -/
theorem bounded_fixed (hturn : Guarded c turn) (hsucc : ∀ b, bounded (b + 1) = turn (bounded b))
    (hzero : ∀ z i, Alike 1 c (bounded 0 i) (turn z i))
    (hx : ∀ i p, x i p = bounded p.tokens.ahead.length i p) {b : Nat} (i : ι)
    (hp : p.tokens.Ended) (hb : p.left ≤ b) : AlikeAt c (bounded b i) (turn x i) p := by
  -- The bound that `x` takes in the states behind is another one, so it is compared there, too.
  induction hn : p.left using Nat.strongRecOn generalizing p b i with
  | ind n ih =>
    subst hn
    cases b with
    | zero => exact hzero x i hp (by omega)
    | succ b =>
      rw [hsucc]
      refine hturn (k := p.left + 1) (fun j q hq hleft => ?_) i hp (Nat.lt_succ_self _)
      have hhere := ih q.left hleft j hq (b := b) (by omega) rfl
      have hthere := ih q.left hleft j hq q.left_le_ahead rfl
      refine ⟨?_, hhere.ran⟩
      rw [hx, ← hthere.same, hhere.same]

theorem grounded (hturn : Guarded c turn) (hfixed : ∀ k i, Alike k c (x i) (turn x i)) :
    Grounded turn x := by
  refine ⟨fun i p hp => (hfixed (p.left + 1) i hp (Nat.lt_succ_self _)).same, ?_⟩
  have happroach : ∀ k n below i, k ≤ n → Alike (k + 1) c (x i) (turn^[n + 1] below i) := by
    intro k
    induction k with
    | zero =>
      intro n below i _
      rw [Function.iterate_succ_apply']
      exact (hfixed 1 i).trans (hturn (fun _ => .nowhere) i)
    | succ k ih =>
      intro n below i hn
      obtain ⟨n, rfl⟩ : ∃ m, n = m + 1 := ⟨n - 1, by omega⟩
      rw [Function.iterate_succ_apply']
      exact (hfixed _ i).trans (hturn (fun j => ih n below j (by omega)) i)
  intro below n i p hp hleft
  exact (happroach n n below i (Nat.le_refl n) hp (Nat.lt_succ_of_le hleft)).same

/-- A recursion with a bound, which the tokens ahead give. -/
theorem grounded_of_bounded (hturn : Guarded c turn) (bounded : Nat → ι → Parse α)
    (hsucc : ∀ b, bounded (b + 1) = turn (bounded b))
    (hzero : ∀ z i, Alike 1 c (bounded 0 i) (turn z i))
    (hx : ∀ i p, x i p = bounded p.tokens.ahead.length i p) : Grounded turn x := by
  refine hturn.grounded fun k i p hp _ => ?_
  have hsame := hturn.bounded_fixed hsucc hzero hx i hp p.left_le_ahead
  constructor
  · rw [hx]
    exact hsame.same
  · rw [hx]
    exact hsame.ran

end Guarded

/-! The turns of the grammar. -/

def separatedTurn (separator : TokenKind) (item : Parse α) (others : Parse (List α)) :
    Parse (List α) := do
  let x ← item
  match ← tryConsume separator with
  | none => pure [x]
  | some _ => do
    let xs ← others
    pure (x :: xs)

/-- An operator with its right operand, for the level and the left operand that are given. -/
def climbTurn (operand : Parse Term) (again : Nat × Term → Parse Term) :
    Nat × Term → Parse Term := fun (floor, lhs) => do
  match (← peekKind).power? with
  | none => pure lhs
  | some power =>
    if power.level < floor then pure lhs
    else do
      let op ← advance
      let first ← operand
      let rhs ← again (power.level + 1, first)
      let cell ← typing (Typing.binary op lhs.typed rhs.typed)
      again (floor, .binary op lhs rhs cell)

def sequenceTurn (operand others : Parse Term) : Parse Term := do
  let first ← operators operand
  match ← tryConsume .semicolon with
  | none => pure first
  | some token => do
    let second ← others
    pure (.sequence token first second)

def chainTurn (operand : Parse Term) (others : Parse (List Term)) : Parse (List Term) := do
  if (← peekKind).startsArgument then
    let first ← operand
    let others ← others
    pure (first :: others)
  else pure []

def stmtsTurn (others : Parse (List Stmt)) : Parse (List Stmt) := do
  if ← hasTokens then
    match ← tryConsume .doubleSemicolon with
    | some _ => others
    | none => do
      let first ← stmt
      let others ← others
      pure (first ++ others)
  else pure []

def single (turn : Parse α → Parse α) : (Unit → Parse α) → Unit → Parse α := fun y _ => turn (y ())

theorem Guarded.of_single {turn : Parse α → Parse α}
    (hturn : ∀ ⦃k y z⦄, Alike (k - 1) c y z → Alike k c (turn y) (turn z)) :
    Guarded c (single turn) := fun _ _ _ h _ => hturn (h ())

theorem next_of_power {kind : TokenKind} {power : Power} (h : kind.power? = some power) :
    kind ≠ .endOfInput := by
  rintro rfl
  cases h

namespace Alike

section Loops

variable {item item' : Parse α} {others others' : Parse (List α)} {separator : TokenKind}

theorem separatedTurn (hseparator : separator ≠ .endOfInput) (hitem : Alike k 1 item item')
    (hothers : Alike (k - 1) 1 others others') :
    Alike k 1 (separatedTurn separator item others) (separatedTurn separator item' others') := by
  refine hitem.seq fun x => tryConsume_seq hseparator (fun _ => ?_) (pure _)
  exact (hothers.atLeast (Nat.zero_le 1)).seq fun xs => pure _

theorem separated (hseparator : separator ≠ .endOfInput) (hitem : Alike k 1 item item') (b : Nat) :
    Alike k 1 (separated separator item b) (separated separator item' b) := by
  induction b with
  | zero => exact hitem.seq fun x => pure _
  | succ b ih => exact separatedTurn hseparator hitem (ih.upTo (Nat.sub_le k 1))

theorem separatedBy (hseparator : separator ≠ .endOfInput) (hitem : Alike k 1 item item') :
    Alike k 1 (separatedBy separator item) (separatedBy separator item') :=
  tokensAhead.seq fun b => separated hseparator hitem b

theorem parenthesised (hitem : Alike k 1 item item') :
    Alike k 1 (parenthesised item) (parenthesised item') := by
  refine tryConsume_seq (by decide) (fun _ => pure _) ?_
  refine (expect (by decide)).seq fun _ => ?_
  refine ((separatedBy (by decide) hitem).atLeast (Nat.zero_le 1)).seq fun xs => ?_
  exact ((expect (by decide)).atLeast (Nat.zero_le 1)).seq fun _ => pure xs

end Loops

section Expressions

variable {op op' : Parse Term}

theorem constant : AlikeAhead k 1 constant constant := by
  refine .advance fun token => ?_
  cases Constant.ofToken token with
  | error problem => exact throw _
  | ok value => exact (typing _).seq fun cell => pure _

variable (hop : Alike k 1 op op')

include hop

theorem climbTurn {again again' : Nat × Term → Parse Term}
    (hagain : ∀ i, Alike (k - 1) 0 (again i) (again' i)) (i : Nat × Term) :
    Alike k 0 (climbTurn op again i) (climbTurn op' again' i) := by
  intro p hp hleft
  refine .peekKind ?_
  cases hpower : p.peek.kind.power? with
  | none => exact pure _ hp hleft
  | some power =>
    dsimp only
    split
    · exact pure _ hp hleft
    · refine .advance hp (next_of_power hpower) hleft ?_
      refine ((hop.upTo (Nat.sub_le k 1)).atLeast (Nat.zero_le 1)).seq fun first => ?_
      refine (hagain _).seq fun rhs => ?_
      exact (typing _).seq fun cell => hagain _

theorem climb (b floor : Nat) (lhs : Term) :
    Alike k 0 (climb op b floor lhs) (climb op' b floor lhs) := by
  induction b generalizing floor lhs with
  | zero => exact pure lhs
  | succ b ih =>
    have hagain (i : Nat × Term) : Alike (k - 1) 0 (Parse.climb op b i.1 i.2)
        (Parse.climb op' b i.1 i.2) := (ih i.1 i.2).upTo (Nat.sub_le k 1)
    exact climbTurn hop hagain (floor, lhs)

theorem climbFrom (floor : Nat) (lhs : Term) :
    Alike k 0 (climbFrom op floor lhs) (climbFrom op' floor lhs) :=
  tokensAhead.seq fun b => climb hop b floor lhs

theorem operators : Alike k 1 (operators op) (operators op') :=
  hop.seq fun first => climbFrom hop 0 first

theorem sequenceTurn {others others' : Parse Term} (hothers : Alike (k - 1) 1 others others') :
    Alike k 1 (sequenceTurn op others) (sequenceTurn op' others') := by
  refine (operators hop).seq fun first => tryConsume_seq (by decide) (fun token => ?_) (pure _)
  exact (hothers.atLeast (Nat.zero_le 1)).seq fun second => pure _

theorem sequenceWithin (b : Nat) : Alike k 1 (sequenceWithin op b) (sequenceWithin op' b) := by
  induction b with
  | zero => exact operators hop
  | succ b ih => exact sequenceTurn hop (ih.upTo (Nat.sub_le k 1))

theorem sequence : Alike k 1 (sequence op) (sequence op') :=
  tokensAhead.seq fun b => sequenceWithin hop b

theorem chainTurn {others others' : Parse (List Term)}
    (hothers : Alike (k - 1) 0 others others') :
    Alike k 0 (chainTurn op others) (chainTurn op' others') := by
  refine peekKind.seq fun kind => ?_
  split
  · exact hop.seqBehind fun first => hothers.seq fun others => pure _
  · exact pure _

theorem chainArguments (b : Nat) : Alike k 0 (chainArguments op b) (chainArguments op' b) := by
  induction b with
  | zero => exact pure _
  | succ b ih => exact chainTurn hop (ih.upTo (Nat.sub_le k 1))

omit hop in
theorem application (hop : Alike (k - 1) 1 op op') :
    AlikeAhead k 1 (application op) (application op') := by
  intro p hp hnext hleft
  refine .currentScope (.advance hp hnext hleft ?_)
  refine (resolve _).seq fun symbol => (signatureOf _ symbol).seq fun signature => ?_
  refine (tokensAhead.seq fun b => chainArguments hop b).seq fun args => ?_
  exact (typing _).seq fun cell => pure _

theorem chainOr {other other' : Parse Term} (hother : Alike k 1 other other') :
    Alike k 1 (chainOr op other) (chainOr op' other') := by
  intro p hp hleft
  refine .peek (.peekNext ?_)
  split
  next hchain => exact application (hop.upTo (Nat.sub_le k 1)) hp (by rw [hchain.1]; decide) hleft
  next => exact (currentScope.seq fun scope => hother.seq fun item => pure _) hp hleft

theorem exp : Alike k 1 (exp op) (exp op') := chainOr hop (sequence hop)

theorem branch : Alike k 1 (branch op) (branch op') := by
  refine (enterScope .block).seq fun scope => ?_
  exact (chainOr hop (operators hop)).seq fun e => leaveScope.seq fun _ => pure _

theorem elseBranch : Alike k 0 (elseBranch op) (elseBranch op') := by
  refine tryConsume_seq (by decide) (fun token => ?_) (pure _)
  exact (((branch hop).atLeast (Nat.zero_le 1)).upTo (Nat.sub_le k 1)).map some

theorem function (name : Token) (isRec : Bool) :
    Alike k 1 (function op name isRec) (function op' name isRec) := by
  refine (parenthesised (expect (by decide))).seq fun tokens => ?_
  refine (typing _).seq fun signature => (newFunction name signature).seq fun symbol => ?_
  refine defineWhen _ symbol ?_
  refine (enterScope .function).seq fun scope => ?_
  refine (newVariables tokens signature.params).seq fun params => (defineAll params).seq fun _ => ?_
  refine (expect (by decide)).seq fun _ => (exp hop).seq fun body => ?_
  refine leaveScope.seq fun _ => (typing _).seq fun _ => defineWhen _ symbol ?_
  exact (defineTag symbol).seq fun _ => pure _

theorem binding (isRec : Bool) : Alike k 1 (binding op isRec) (binding op' isRec) := by
  refine (expect (by decide)).seq fun name => peekKind.seq fun kind => ?_
  split
  · exact (function hop name isRec).atLeast (Nat.zero_le 1)
  · exact (function hop name isRec).atLeast (Nat.zero_le 1)
  · refine (expect (by decide)).seq fun _ => (exp hop).seq fun body => ?_
    exact (newVariable name body.cell).seq fun symbol => (define symbol).seq fun _ => pure _

theorem bindings (isRec : Bool) : Alike k 1 (bindings op isRec) (bindings op' isRec) :=
  separatedBy (by decide) (binding hop isRec)

theorem finishLet (token : Token) (bindings : List Binding) (scope : ScopeId) :
    Alike k 1 (finishLet op token bindings scope) (finishLet op' token bindings scope) := by
  refine (expect (by decide)).seq fun _ => (exp hop).seq fun body => ?_
  exact leaveScope.seq fun _ => (appendToCurrent scope).seq fun _ => pure _

end Expressions

section Operands

variable {op op' : Parse Term} (hop : Alike (k - 1) 1 op op')

include hop

theorem signed : AlikeAhead k 1 (signed op) (signed op') := by
  refine .advance fun token => ?_
  exact (hop.atLeast (Nat.zero_le 1)).seq fun inner => (typing _).seq fun cell => pure _

theorem name : AlikeAhead k 1 (name op) (name op') := by
  refine .advance fun token => ?_
  refine (resolve token).seq fun symbol => peekKind.seq fun kind => ?_
  split
  · refine (signatureOf token symbol).seq fun signature => ?_
    refine ((parenthesised (exp hop)).atLeast (Nat.zero_le 1)).seq fun args => ?_
    exact (typing _).seq fun cell => pure _
  · refine (signatureOf token symbol).seq fun signature => ?_
    refine ((parenthesised (exp hop)).atLeast (Nat.zero_le 1)).seq fun args => ?_
    exact (typing _).seq fun cell => pure _
  · exact pure _

theorem grouping : AlikeAhead k 1 (grouping op) (grouping op') := by
  refine .advance fun token => ?_
  refine (exp hop).seq fun first => tryConsume_seq (by decide) (fun comma => ?_) ?_
  · refine .upTo ?_ (Nat.sub_le (k - 1) 1)
    refine (exp hop).seq fun second => (expect (by decide)).seq fun _ => ?_
    exact (typing _).seq fun cell => pure _
  · exact (expect (by decide)).seq fun _ => pure _

theorem projection : AlikeAhead k 1 (projection op) (projection op') := by
  refine .advance fun token => ?_
  refine (expect (by decide)).seq fun _ => (exp hop).seq fun first => ?_
  refine (expect (by decide)).seq fun _ => (exp hop).seq fun second => ?_
  exact (expect (by decide)).seq fun _ => pure _

theorem conditional : AlikeAhead k 1 (conditional op) (conditional op') := by
  refine .advance fun token => ?_
  refine (exp hop).seq fun condition => (expect (by decide)).seq fun _ => ?_
  refine (branch hop).seq fun first => (elseBranch hop).seq fun second => ?_
  refine (typing _).seq fun cell => (appendToCurrent _).seq fun _ => ?_
  cases second with
  | none => exact pure _
  | some second => exact (appendToCurrent _).seq fun _ => pure _

theorem loop : AlikeAhead k 1 (loop op) (loop op') := by
  refine .advance fun token => ?_
  refine (exp hop).seq fun condition => (expect (by decide)).seq fun _ => ?_
  refine (enterScope .block).seq fun scope => (exp hop).seq fun body => ?_
  refine leaveScope.seq fun _ => (expect (by decide)).seq fun _ => ?_
  exact (typing _).seq fun cell => (appendToCurrent scope).seq fun _ => pure _

theorem letIn : AlikeAhead k 1 (letIn op) (letIn op') := by
  refine .advance fun token => ?_
  refine (tryConsume (by decide)).seq fun recToken => (enterScope .block).seq fun scope => ?_
  refine (bindings hop _).seq fun bs => ?_
  exact (finishLet hop token bs scope).atLeast (Nat.zero_le 1)

/-- Operands inside an operand are read behind its first token. -/
theorem operandStep : Alike k 1 (operandStep op) (operandStep op') := by
  intro p hp hleft
  refine .peekKind ?_
  cases hkind : p.peek.kind with
  | identifier => exact name hop hp (by rw [hkind]; decide) hleft
  | int | float | bool | string | unit => exact constant hp (by rw [hkind]; decide) hleft
  | plus | dash => exact signed hop hp (by rw [hkind]; decide) hleft
  | openParen => exact grouping hop hp (by rw [hkind]; decide) hleft
  | fstWord | sndWord => exact projection hop hp (by rw [hkind]; decide) hleft
  | ifWord => exact conditional hop hp (by rw [hkind]; decide) hleft
  | whileWord => exact loop hop hp (by rw [hkind]; decide) hleft
  | letWord => exact letIn hop hp (by rw [hkind]; decide) hleft
  | _ => exact unexpected hp hleft

end Operands

theorem operandWithin (b : Nat) : Alike k 1 (operandWithin b) (operandWithin b) := by
  induction b generalizing k with
  | zero => exact unexpected
  | succ b ih => exact operandStep ih

theorem operand : Alike k 1 operand operand := tokensAhead.seq fun b => operandWithin b

/-! Statements. -/

theorem letStmt (token : Token) (block : ScopeId) :
    AlikeAhead k 1 (letStmt token block) (letStmt token block) := by
  refine .advance fun _ => ?_
  refine (tryConsume (by decide)).seq fun recToken => (enterScope .block).seq fun scope => ?_
  refine ((bindings operand _).atLeast (Nat.zero_le 1)).seq fun bs => peekKind.seq fun kind => ?_
  split
  · refine ((finishLet operand token bs scope).atLeast (Nat.zero_le 1)).seq fun item => ?_
    exact ((expect (by decide)).atLeast (Nat.zero_le 1)).seq fun _ => pure _
  · refine leaveScope.seq fun _ => ((expect (by decide)).atLeast (Nat.zero_le 1)).seq fun _ => ?_
    exact (defineAllAtTop bs).seq fun _ => pure _

theorem expStmt (token : Token) (block : ScopeId) :
    Alike k 1 (expStmt token block) (expStmt token block) := by
  refine (exp operand).seq fun e => (expect (by decide)).seq fun _ => ?_
  cases e.var? with
  | none => exact pure _
  | some use => exact pure _

theorem stmt : Alike k 1 stmt stmt := by
  intro p hp hleft
  refine .peek (.enterScope (.thenLeaveScope ?_))
  split
  next hlet => exact letStmt p.peek _ hp (by change p.peek.kind ≠ _; rw [hlet]; decide) hleft
  next => exact expStmt p.peek _ hp hleft

theorem stmtsTurn {others others' : Parse (List Stmt)} (hothers : Alike (k - 1) 0 others others') :
    Alike k 0 (stmtsTurn others) (stmtsTurn others') := by
  refine hasTokens.seq fun more => ?_
  split
  · refine tryConsume_seq (by decide) (fun _ => hothers) ?_
    exact stmt.seqBehind fun first => hothers.seq fun others => pure _
  · exact pure _

theorem stmts (b : Nat) : Alike k 0 (stmts b) (stmts b) := by
  induction b generalizing k with
  | zero => exact pure _
  | succ b ih => exact stmtsTurn ih

end Alike

end MiniMl.Parse
