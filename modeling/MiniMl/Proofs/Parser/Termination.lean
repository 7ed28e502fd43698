import MiniMl.Proofs.Parser.Productions
import MiniMl.Proofs.Parser.Recursion

/-! # Parsing ends

From every state the productions read tokens only, and those that make something read one or more.
The loops and the recursion among the productions end with the tokens left.
-/

namespace MiniMl

namespace Parse

variable {p q : Parser} {k c : Nat} {α β : Type}

section Operators

variable {op : Parse Term}

theorem climbFrom_stop {floor : Nat} {lhs : Term}
    (hstop : ∀ power, p.peek.kind.power? = some power → power.level < floor) :
    climbFrom op floor lhs p = .ok lhs p := by
  rw [climbFrom, tokensAhead_bind]
  cases p.tokens.ahead.length with
  | zero => rfl
  | succ b =>
    rw [climb, peekKind_bind]
    cases hpower : p.peek.kind.power? with
    | none => rfl
    | some power =>
      dsimp only
      rw [if_pos (hstop power hpower)]
      rfl

theorem climbTurn_step {again : Nat × Term → Parse Term} {floor : Nat} {lhs : Term} {power : Power}
    (hpower : p.peek.kind.power? = some power) (hfloor : floor ≤ power.level) :
    climbTurn op again (floor, lhs) p = (do
      let token ← advance
      let first ← op
      let rhs ← again (power.level + 1, first)
      let cell ← typing (Typing.binary token lhs.typed rhs.typed)
      again (floor, .binary token lhs rhs cell)) p := by
  rw [climbTurn, peekKind_bind, hpower]
  dsimp only
  rw [if_neg (Nat.not_lt.mpr hfloor)]

variable (hop : ∀ k, Alike k 1 op op)

include hop

theorem climb_grounded : Grounded (climbTurn op) fun i => climbFrom op i.1 i.2 := by
  have hturn : Guarded 0 (climbTurn op) := fun k y z hagain i => .climbTurn (hop k) hagain i
  refine hturn.grounded_of_bounded (fun b i => climb op b i.1 i.2) (fun b => rfl) ?_ fun i p => rfl
  intro z i p hp hleft
  have hend := peek_at_end hp (Nat.lt_one_iff.mp hleft)
  refine (Alike.pure i.2 hp hleft).of_run rfl ?_
  rw [climbTurn, peekKind_bind, hend]
  rfl

theorem climbFrom_step {floor : Nat} (lhs : Term) {power : Power} (hp : p.tokens.Ended)
    (hpower : p.peek.kind.power? = some power) (hfloor : floor ≤ power.level) :
    climbFrom op floor lhs p = (do
      let token ← advance
      let first ← op
      let rhs ← climbFrom op (power.level + 1) first
      let cell ← typing (Typing.binary token lhs.typed rhs.typed)
      climbFrom op floor (.binary token lhs rhs cell)) p :=
  ((climb_grounded hop).fixed (floor, lhs) p hp).symm.trans (climbTurn_step hpower hfloor)

/-- The operators of a level are read before the weaker ones, so the strong ones may be read first. -/
theorem climbFrom_twice {strong weak : Nat} (hlevels : weak ≤ strong) (lhs : Term) :
    Alike k 0 (climbFrom op weak lhs) (climbFrom op strong lhs >>= climbFrom op weak) := by
  induction k generalizing lhs with
  | zero => exact .nowhere
  | succ k ih =>
    intro p hp hleft
    by_cases hgo : ∃ power, p.peek.kind.power? = some power ∧ strong ≤ power.level
    · obtain ⟨power, hpower, hstrong⟩ := hgo
      have hrun := climbFrom_step hop lhs hp hpower hstrong
      refine AlikeAt.of_run ?_ (climbFrom_step hop lhs hp hpower (Nat.le_trans hlevels hstrong))
        (bind_congr_run hrun)
      simp only [bind_assoc]
      refine .advance hp (next_of_power hpower) hleft ?_
      refine ((hop k).atLeast (Nat.zero_le 1)).seq fun first => ?_
      refine (Alike.climbFrom (hop k) _ first).seq fun rhs => ?_
      exact (Alike.typing _).seq fun cell => ih _
    · have hstop : climbFrom op strong lhs p = .ok lhs p :=
        climbFrom_stop fun power hpower => Nat.not_le.mp fun hle => hgo ⟨power, hpower, hle⟩
      exact (Alike.climbFrom (hop _) weak lhs hp hleft).of_run rfl (bind_of_run hstop)

theorem climbFrom_reads {floor : Nat} {lhs : Term} {power : Power} (hp : p.tokens.Ended)
    (hpower : p.peek.kind.power? = some power) (hfloor : floor ≤ power.level) :
    AlikeAt 1 (climbFrom op floor lhs) (climbFrom op floor lhs) p := by
  have hrun := climbFrom_step hop lhs hp hpower hfloor
  refine AlikeAt.of_run ?_ hrun hrun
  refine .advance (k := p.left + 1) hp (next_of_power hpower) (Nat.lt_succ_self _) ?_
  refine ((hop _).atLeast (Nat.zero_le 1)).seq fun first => ?_
  refine (Alike.climbFrom (hop _) _ first).seq fun rhs => ?_
  exact (Alike.typing _).seq fun cell => Alike.climbFrom (hop _) _ _

omit hop

/-- The operators that bind more strongly than a level take a right operand in, each run of them
from its own level on. -/
def strongerTurn (op : Parse Term) (again : Nat × Term → Parse Term) :
    Nat × Term → Parse Term := fun (level, rhs) => do
  match (← peekKind).power? with
  | none => pure rhs
  | some next =>
    if next.level ≤ level then pure rhs
    else do
      let rhs ← climbFrom op next.level rhs
      again (level, rhs)

/-- Taken in run by run or at once, the right operand is the same. -/
theorem stronger_grounded (hop : ∀ k, Alike k 1 op op) :
    Grounded (strongerTurn op) fun i => climbFrom op (i.1 + 1) i.2 := by
  have hturn : Guarded 0 (strongerTurn op) := by
    intro k y z hagain i p hp hleft
    refine .peekKind ?_
    cases hpower : p.peek.kind.power? with
    | none => exact Alike.pure _ hp hleft
    | some next =>
      dsimp only
      split
      next => exact Alike.pure _ hp hleft
      next hlevel =>
        exact (climbFrom_reads hop hp hpower (Nat.le_refl _)).seq hp hleft fun rhs => hagain _
  refine hturn.grounded fun k i p hp hleft => ?_
  by_cases hgo : ∃ next, p.peek.kind.power? = some next ∧ i.1 + 1 ≤ next.level
  · obtain ⟨next, hpower, hlevel⟩ := hgo
    refine (climbFrom_twice hop hlevel i.2 hp hleft).of_run rfl ?_
    rw [strongerTurn, peekKind_bind, hpower]
    dsimp only
    rw [if_neg (Nat.not_le.mpr hlevel)]
  · have hlow (power : Power) (hpower : p.peek.kind.power? = some power) :
        power.level < i.1 + 1 := Nat.not_le.mp fun hle => hgo ⟨power, hpower, hle⟩
    refine (Alike.pure i.2 hp hleft).of_run (climbFrom_stop hlow) ?_
    rw [strongerTurn, peekKind_bind]
    cases hpower : p.peek.kind.power? with
    | none => rfl
    | some power =>
      dsimp only
      rw [if_pos (Nat.le_of_lt_succ (hlow power hpower))]

end Operators

/-! The other loops, and the recursion of operands in operands. -/

theorem single_grounded {turn : Parse α → Parse α} {bounded : Nat → Parse α}
    (hturn : ∀ ⦃k y z⦄, Alike (k - 1) c y z → Alike k c (turn y) (turn z))
    (hsucc : ∀ b, bounded (b + 1) = turn (bounded b))
    (hzero : ∀ z, Alike 1 c (bounded 0) (turn z)) :
    Grounded (single turn) fun _ => tokensAhead >>= bounded :=
  (Guarded.of_single hturn).grounded_of_bounded (fun b _ => bounded b)
    (fun b => funext fun _ => hsucc b) (fun z _ => hzero (z ())) fun _ _ => rfl

theorem operand_grounded : Grounded (single operandStep) fun _ => operand := by
  refine single_grounded (fun _ _ _ hop => .operandStep hop) (fun _ => rfl) fun _ p hp hleft => ?_
  have hend := peek_at_end hp (Nat.lt_one_iff.mp hleft)
  refine (Alike.unexpected hp hleft).of_run rfl ?_
  rw [operandStep, peekKind_bind, hend]

theorem Alike.last {x : Parse α} {m m' : α → Parse β} (hx : Alike 1 1 x x) :
    Alike 1 c (x >>= m) (x >>= m') := hx.seqBehind fun _ => .nowhere

theorem separated_grounded {separator : TokenKind} {item : Parse α}
    (hseparator : separator ≠ .endOfInput) (hitem : ∀ k, Alike k 1 item item) :
    Grounded (single (separatedTurn separator item)) fun _ => separatedBy separator item :=
  single_grounded (fun k _ _ hothers => .separatedTurn hseparator (hitem k) hothers) (fun _ => rfl)
    fun _ => (hitem 1).last

theorem sequence_grounded :
    Grounded (single (sequenceTurn operand)) fun _ => sequence operand := by
  refine single_grounded (fun _ _ _ hothers => .sequenceTurn .operand hothers) (fun _ => rfl)
    fun z => ?_
  have hlast : Alike 1 1 (operators operand >>= pure) (sequenceTurn operand z) :=
    (Alike.operators .operand).last
  rwa [bind_pure] at hlast

def chain : Parse (List Term) := do chainArguments operand (← tokensAhead)

theorem chain_grounded : Grounded (single (chainTurn operand)) fun _ => chain := by
  refine single_grounded (fun _ _ _ hothers => .chainTurn .operand hothers) (fun _ => rfl)
    fun _ p hp hleft => ?_
  have hend := peek_at_end hp (Nat.lt_one_iff.mp hleft)
  refine (Alike.pure [] hp hleft).of_run rfl ?_
  rw [chainTurn, peekKind_bind, hend]
  rfl

def statements : Parse (List Stmt) := do stmts (← tokensAhead)

theorem statements_grounded : Grounded (single stmtsTurn) fun _ => statements := by
  refine single_grounded (fun _ _ _ hothers => .stmtsTurn hothers) (fun _ => rfl)
    fun _ p hp hleft => ?_
  have hend := peek_at_end hp (Nat.lt_one_iff.mp hleft)
  have hdone : p.hasTokens = false := by
    simp only [Parser.hasTokens, TokenSequence.atEnd, test_eq, hend, decide_true, Bool.not_true]
  refine (Alike.pure [] hp hleft).of_run rfl ?_
  rw [stmtsTurn, hasTokens_bind, hdone]
  rfl

/-- Every recursion of the parser, with the turn in which it comes around. -/
structure Recursions : Prop where
  operands : Grounded (single operandStep) fun _ => operand
  operators : Grounded (climbTurn operand) fun i => climbFrom operand i.1 i.2
  stronger : Grounded (strongerTurn operand) fun i => climbFrom operand (i.1 + 1) i.2
  sequences : Grounded (single (sequenceTurn operand)) fun _ => sequence operand
  chains : Grounded (single (chainTurn operand)) fun _ => chain
  arguments : Grounded (single (separatedTurn .comma (exp operand))) fun _ =>
    separatedBy .comma (exp operand)
  parameters : Grounded (single (separatedTurn .comma (expect .identifier))) fun _ =>
    separatedBy .comma (expect .identifier)
  bindings (isRec : Bool) : Grounded (single (separatedTurn .andWord (binding operand isRec)))
    fun _ => Parse.bindings operand isRec
  statements : Grounded (single stmtsTurn) fun _ => statements

theorem recursions : Recursions where
  operands := operand_grounded
  operators := climb_grounded fun _ => .operand
  stronger := stronger_grounded fun _ => .operand
  sequences := sequence_grounded
  chains := chain_grounded
  arguments := separated_grounded (by decide) fun _ => .exp .operand
  parameters := separated_grounded (by decide) fun _ => .expect (by decide)
  bindings isRec := separated_grounded (by decide) fun _ => .binding .operand isRec
  statements := statements_grounded

/-! A name is read before it is known whether it begins a chain. -/

section Rereading

def mark : Parse Checkpoint := Parser.mark <$> get

def resetTo (c : Checkpoint) : Parse Unit := modify (·.resetTo c)

theorem mark_bind (f : Checkpoint → Parse β) (p : Parser) : (mark >>= f) p = f p.mark p := rfl

theorem resetTo_bind (c : Checkpoint) (f : Unit → Parse β) (p : Parser) :
    (resetTo c >>= f) p = f () (p.resetTo c) := rfl

/-- A chain, or what `other` reads. A name is read and resolved to see what follows, and read again
if no chain does. -/
def chainOrReread (operand other : Parse Term) : Parse Exp := do
  let root ← peek
  let scope ← currentScope
  if root.kind = .identifier then do
    let checkpoint ← mark
    let head ← advance
    let symbol ← resolve head
    if (← peekKind).startsArgument then do
      let signature ← signatureOf head symbol
      let args ← chainArguments operand (← tokensAhead)
      let cell ← typing (Typing.call head signature (args.map Term.typed))
      pure (.apply ⟨head, symbol⟩ args cell scope)
    else do
      resetTo checkpoint
      let item ← other
      pure (.single root item scope)
  else do
    let item ← other
    pure (.single root item scope)

theorem reset_advance (p : Parser) : p.advance.resetTo p.mark = p := by
  change { p with tokens := p.tokens.advance.resetTo p.tokens.mark } = p
  have htokens : p.tokens.advance.resetTo p.tokens.mark = p.tokens := by
    rw [TokenSequence.resetTo, TokenSequence.mark, TokenSequence.sentinel_advance]
  rw [htokens]

theorem chainOrReread_run {op other : Parse Term}
    (hother : p.peek.kind = .identifier → ∀ d, resolve p.peek p.advance = .error d p.advance →
      other p = .error d p.advance) :
    chainOrReread op other p = chainOr op other p := by
  have hnext : p.tokens.peekNext = p.advance.peek := p.tokens.peekNext_eq_advance
  rw [chainOrReread, chainOr, peek_bind, peek_bind, currentScope_bind, peekNext_bind, hnext]
  by_cases hname : p.peek.kind = .identifier
  · rw [if_pos hname, mark_bind, advance_bind]
    cases hfound : p.advance.arena.findToken? p.advance.scope p.peek with
    | none =>
      have hfail := resolve_missing hfound
      rw [bind_of_error hfail]
      split
      · rw [application, currentScope_bind, advance_bind, bind_of_error hfail]
      · rw [currentScope_bind, bind_of_error (hother hname _ hfail)]
    | some symbol =>
      have hresolve := resolve_found hfound
      rw [bind_of_run hresolve, peekKind_bind]
      by_cases hchain : p.advance.peek.kind.startsArgument = true
      · rw [if_pos hchain, if_pos ⟨hname, hchain⟩, application, currentScope_bind, advance_bind,
          bind_of_run hresolve]
      · rw [if_neg hchain, if_neg fun h => hchain h.2, currentScope_bind]
        rw [resetTo_bind, reset_advance]
  · rw [if_neg hname, if_neg fun h => hname h.1, currentScope_bind]

theorem operand_unresolved (hp : p.tokens.Ended) (hname : p.peek.kind = .identifier)
    {d : Diagnostic} (hfail : resolve p.peek p.advance = .error d p.advance) :
    operand p = .error d p.advance := by
  rw [← operand_grounded.fixed () p hp, single, operandStep, peekKind_bind, hname]
  dsimp only
  rw [name, advance_bind, bind_of_error hfail]

theorem operators_unresolved (hp : p.tokens.Ended) (hname : p.peek.kind = .identifier)
    {d : Diagnostic} (hfail : resolve p.peek p.advance = .error d p.advance) :
    operators operand p = .error d p.advance := by
  rw [operators, bind_of_error (operand_unresolved hp hname hfail)]

theorem exp_reread (hp : p.tokens.Ended) :
    chainOrReread operand (sequence operand) p = exp operand p := by
  refine chainOrReread_run fun hname d hfail => ?_
  rw [← sequence_grounded.fixed () p hp, single, sequenceTurn,
    bind_of_error (operators_unresolved hp hname hfail)]

theorem branch_reread (hp : p.tokens.Ended) :
    chainOrReread operand (operators operand) p = chainOr operand (operators operand) p :=
  chainOrReread_run fun hname _ hfail => operators_unresolved hp hname hfail

end Rereading

/-! What is read on the way. -/

theorem Alike.ran {x : Parse α} (h : ∀ k, Alike k c x x) (hp : p.tokens.Ended) :
    Ran c p.tokens (x p) := (h _ hp (Nat.lt_succ_self p.left)).ran

/-- Every production reads tokens only, also when it fails. Those that make a part of the tree have
read one or more, and the productions that begin with a token of their own are tried where one
comes next. -/
structure Progress (p : Parser) : Prop where
  stmt : Ran 1 p.tokens (stmt p)
  bindings (isRec : Bool) : Ran 1 p.tokens (bindings operand isRec p)
  binding (isRec : Bool) : Ran 1 p.tokens (binding operand isRec p)
  function (name : Token) (isRec : Bool) : Ran 1 p.tokens (function operand name isRec p)
  exp : Ran 1 p.tokens (exp operand p)
  branch : Ran 1 p.tokens (branch operand p)
  sequence : Ran 1 p.tokens (sequence operand p)
  operators : Ran 1 p.tokens (operators operand p)
  operand : Ran 1 p.tokens (operand p)
  callArguments : Ran 1 p.tokens (parenthesised (Parse.exp Parse.operand) p)
  parameters : Ran 1 p.tokens (parenthesised (expect .identifier) p)
  finishLet (token : Token) (bs : List Binding) (scope : ScopeId) :
    Ran 1 p.tokens (finishLet Parse.operand token bs scope p)
  climbFrom (floor : Nat) (lhs : Term) : Ran 0 p.tokens (climbFrom Parse.operand floor lhs p)
  chain : Ran 0 p.tokens (chain p)
  elseBranch : Ran 0 p.tokens (elseBranch Parse.operand p)
  statements : Ran 0 p.tokens (statements p)
  application : p.peek.kind ≠ .endOfInput → Ran 1 p.tokens (application Parse.operand p)
  letStmt (token : Token) (block : ScopeId) : p.peek.kind ≠ .endOfInput →
    Ran 1 p.tokens (letStmt token block p)
  operands : p.peek.kind ≠ .endOfInput → ∀ handler ∈ [constant, signed Parse.operand,
    name Parse.operand, grouping Parse.operand, projection Parse.operand,
    conditional Parse.operand, loop Parse.operand, letIn Parse.operand],
    Ran 1 p.tokens (handler p)

theorem progress (hp : p.tokens.Ended) : Progress p where
  stmt := Alike.ran (fun _ => .stmt) hp
  bindings isRec := Alike.ran (fun _ => .bindings .operand isRec) hp
  binding isRec := Alike.ran (fun _ => .binding .operand isRec) hp
  function name isRec := Alike.ran (fun _ => .function .operand name isRec) hp
  exp := Alike.ran (fun _ => .exp .operand) hp
  branch := Alike.ran (fun _ => .branch .operand) hp
  sequence := Alike.ran (fun _ => .sequence .operand) hp
  operators := Alike.ran (fun _ => .operators .operand) hp
  operand := Alike.ran (fun _ => .operand) hp
  callArguments := Alike.ran (fun _ => .parenthesised (.exp .operand)) hp
  parameters := Alike.ran (fun _ => .parenthesised (.expect (by decide))) hp
  finishLet token bs scope := Alike.ran (fun _ => .finishLet .operand token bs scope) hp
  climbFrom floor lhs := Alike.ran (fun _ => .climbFrom .operand floor lhs) hp
  chain := Alike.ran (fun _ => Alike.tokensAhead.seq fun b => .chainArguments .operand b) hp
  elseBranch := Alike.ran (fun _ => .elseBranch .operand) hp
  statements := Alike.ran (fun _ => Alike.tokensAhead.seq fun b => .stmts b) hp
  application hnext := (Alike.application .operand hp hnext (Nat.lt_succ_self _)).ran
  letStmt token block hnext := (Alike.letStmt token block hp hnext (Nat.lt_succ_self _)).ran
  operands hnext := by
    have hread {x : Parse Term} (h : AlikeAhead (p.left + 1) 1 x x) : Ran 1 p.tokens (x p) :=
      (h hp hnext (Nat.lt_succ_self _)).ran
    intro handler hmem
    simp only [List.mem_cons, List.not_mem_nil, or_false] at hmem
    rcases hmem with rfl | rfl | rfl | rfl | rfl | rfl | rfl | rfl
    · exact hread Alike.constant
    · exact hread (Alike.signed .operand)
    · exact hread (Alike.name .operand)
    · exact hread (Alike.grouping .operand)
    · exact hread (Alike.projection .operand)
    · exact hread (Alike.conditional .operand)
    · exact hread (Alike.loop .operand)
    · exact hread (Alike.letIn .operand)

theorem stmts_to_end {b : Nat} {ss : List Stmt} (hp : p.tokens.Ended) (hb : p.left ≤ b)
    (h : stmts b p = .ok ss q) : q.peek.kind = .endOfInput := by
  induction b generalizing p ss with
  | zero =>
    obtain ⟨-, rfl⟩ := pure_ok.mp h
    exact peek_at_end hp (Nat.le_zero.mp hb)
  | succ b ih =>
    obtain ⟨-, -, h⟩ | ⟨-, first, r, others, hfirst, h, -⟩ | ⟨hdone, -, rfl⟩ := stmts_succ_ok h
    · exact ih hp.advance (by rw [Parser.left_advance]; omega) h
    · have hran := (progress hp).stmt
      rw [hfirst] at hran
      cases hran with
      | ok hreads hpos =>
        have hr := left_of_reads hreads hp
        exact ih ((hreads.moved hp).ended hp) (by omega) h
    · simpa [Parser.hasTokens, TokenSequence.atEnd, test_eq] using hdone

end Parse

open Parse

/-- A parse is through: with a program at the end of the input or with a problem, and tokens were
read on the way to either. -/
inductive TokenSequence.Parsed (s : TokenSequence) : Prop where
  | program {ss : List Stmt} {q : Parser} {ts : List Token} :
      Parse.stmts s.ahead.length (.ofTokens s) = .ok ss q →
      parse s = .ok ⟨ss, Parser.fileScope, q.arena, q.store⟩ → s.Reads ts q.tokens →
      q.tokens.overrun = s.overrun → q.peek.kind = .endOfInput → s.Parsed
  | problem {d : Diagnostic} {q : Parser} {ts : List Token} :
      Parse.stmts s.ahead.length (.ofTokens s) = .error d q → parse s = .error d →
      s.Reads ts q.tokens → q.tokens.overrun = s.overrun → s.Parsed

theorem TokenSequence.Ended.parsed {s : TokenSequence} (hs : s.Ended) : s.Parsed := by
  have hran : Ran 0 s (Parse.stmts s.ahead.length (.ofTokens s)) :=
    (progress (p := .ofTokens s) hs).statements
  cases hrun : Parse.stmts s.ahead.length (.ofTokens s) with
  | ok ss q =>
    rw [hrun] at hran
    cases hran with
    | ok hreads _ =>
      refine .program hrun ?_ hreads (hreads.moved hs).overrun ?_
      · rw [parse, hrun]
      · exact stmts_to_end (p := .ofTokens s) hs (Parser.ofTokens s).left_le_ahead hrun
  | error d q =>
    rw [hrun] at hran
    cases hran with
    | error hreads =>
      refine .problem hrun ?_ hreads (hreads.moved hs).overrun
      rw [parse, hrun]

/-- Parsing ends and stays within the tokens. Reading moves the cursor past tokens none of which is
the end of the input, and never past the last one. Every production does nothing else, from every
state, and where it makes something it has read. That holds also of the name that is read twice.
The recursion behind every production goes no deeper than the tokens left, and a parse is through
with a program or with a problem. -/
theorem parsing_ends :
    (∀ (s t : TokenSequence) (ts : List Token), s.Ended → s.Reads ts t → s.Moved ts t) ∧
    (∀ p : Parser, p.tokens.Ended → Progress p ∧
      chainOrReread operand (sequence operand) p = exp operand p ∧
      chainOrReread operand (operators operand) p = chainOr operand (operators operand) p) ∧
    Recursions ∧
    ∀ (tokens : List Token) (file : String),
      (TokenSequence.ofList tokens file).overrun = 0 ∧ (TokenSequence.ofList tokens file).Ended ∧
      (TokenSequence.ofList tokens file).Parsed := by
  refine ⟨fun s t ts hs hreads => hreads.moved hs, fun p hp => ?_, recursions, fun tokens file => ?_⟩
  · exact ⟨progress hp, exp_reread hp, branch_reread hp⟩
  · have hended : (TokenSequence.ofList tokens file).Ended := rfl
    exact ⟨rfl, hended, hended.parsed⟩

/-- One statement among newlines, then the end of the input and an invalid token. -/
def endedEarly : List Token :=
  let token (kind : TokenKind) (text : String) : Token := ⟨kind, text, .start "shell"⟩
  [token .newline "", token .int "1", token .newline "", token .doubleSemicolon ";;",
    token .endOfInput "EOF", token .invalid "$"]

theorem parsing_ends_early :
    ∃ (ss : List Stmt) (q : Parser) (ts : List Token),
      parse (.ofList endedEarly "shell") = .ok ⟨ss, Parser.fileScope, q.arena, q.store⟩ ∧
      (TokenSequence.ofList endedEarly "shell").Moved ts q.tokens ∧ ts.length = 2 ∧
      q.tokens.overrun = 0 ∧ q.peek.kind = .endOfInput := by
  have hrun : ((Parse.stmts 6).outcome? (.ofTokens (.ofList endedEarly "shell"))).map
      (fun (_, q) => q.tokens.rest.length) = some 2 := by decide +kernel
  obtain ⟨⟨ss, q⟩, hrun, hrest⟩ := Option.map_eq_some_iff.mp hrun
  have hrun := outcome?_eq_some.mp hrun
  obtain ⟨hmoved, -, -, hparse⟩ := parsing_ends
  obtain ⟨hoverrun, hended, hparsed⟩ := hparse endedEarly "shell"
  cases hparsed with
  | problem hfail => exact absurd (hrun.symm.trans hfail) (by simp)
  | program hok hprogram hreads hq hend =>
    cases hrun.symm.trans hok
    have hpast := hmoved _ _ _ hended hreads
    have hlength := congrArg List.length hpast.rest
    rw [List.length_append] at hlength
    have hall : (TokenSequence.ofList endedEarly "shell").rest.length = 4 := by decide
    exact ⟨_, _, _, hprogram, hpast, by dsimp only at hrest; omega, hq.trans hoverrun, hend⟩

end MiniMl
