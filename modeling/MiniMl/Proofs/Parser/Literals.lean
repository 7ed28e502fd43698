import MiniMl.Proofs.Parser.Extension
import MiniMl.Proofs.Parser.LetStatements

/-! # Literals

A token that writes a constant is an operand on its own. If nothing but a double semicolon follows, it
is all of a program, which is accepted just when the token has a value.
-/

namespace MiniMl

namespace TokenSequence

variable {s : TokenSequence} {t : Token} {more : List Token}

theorem peek_of_rest (h : s.rest = t :: more) : s.peek = t ∧ s.advance.rest = more := by
  constructor
  · rw [peek_eq, h]
    rfl
  · rw [rest_advance, h]
    rfl

theorem ahead_of_rest (h : s.rest = t :: more) : ∃ n, s.ahead.length = n + 1 := by
  rcases s.upcoming_cases with ⟨-, hnone⟩ | ⟨u, us, -, -, hahead, -⟩
  · rw [hnone] at h
    cases h
  · rw [hahead, List.length_append, List.length_cons]
    exact ⟨_, rfl⟩

end TokenSequence

namespace TokenKind

def isLiteral : TokenKind → Bool
  | int | float | bool | string | unit => true
  | _ => false

theorem ne_of_isLiteral {kind other : TokenKind} (hkind : kind.isLiteral = true)
    (hother : other.isLiteral = false) : kind ≠ other := by
  rintro rfl
  rw [hkind] at hother
  cases hother

end TokenKind

theorem Store.kind?_new (s : Store) (kind : Kind) :
    (s.add (.known kind)).2.kind? (s.add (.known kind)).1 = some kind := by
  have hslot : (s.add (.known kind)).2.slots[(s.add (.known kind)).1]? = some (.known kind) := by
    simp [Store.add]
  have hroot : (s.add (.known kind)).2.IsRoot (s.add (.known kind)).1 := by
    intro d hd
    rw [LinksTo, hslot] at hd
    cases hd
  rw [Store.kind?, root_of_isRoot hroot, hslot]

namespace Parse

variable {p : Parser} {op : Parse Term} {t u : Token} {more : List Token} {value : Constant}
  {problem : Problem}

/-- The state behind a constant, whose cell is the last one made. -/
def behindConstant (p : Parser) (value : Constant) : Parser :=
  p.advance.withStore (p.store.add (.known value.kind)).2

theorem constant_run (h : Constant.ofToken p.peek = .ok value) :
    constant p = .ok (.constant p.peek value p.store.slots.size) (behindConstant p value) := by
  rw [constant, advance_bind, h]
  rfl

theorem constant_failed (h : Constant.ofToken p.peek = .error problem) :
    constant p = .error ⟨problem, p.peek.location⟩ p.advance := by
  rw [constant, advance_bind, h]
  rfl

theorem operandStep_of_literal (hkind : p.peek.kind.isLiteral = true) :
    operandStep op p = constant p := by
  rw [operandStep, peekKind_bind]
  cases hk : p.peek.kind
  all_goals rw [hk] at hkind
  all_goals first | rfl | cases hkind

theorem operand_of_literal (hrest : p.tokens.rest = t :: more) (hkind : t.kind.isLiteral = true) :
    operand p = constant p := by
  obtain ⟨n, hn⟩ := TokenSequence.ahead_of_rest hrest
  obtain ⟨hpeek, -⟩ := TokenSequence.peek_of_rest hrest
  rw [operand, tokensAhead_bind, hn]
  apply operandStep_of_literal
  rw [Parser.peek, hpeek]
  exact hkind

theorem no_chain_of_literal (hkind : t.kind.isLiteral = true) (hpeek : p.peek = t) :
    ¬ (p.peek.kind = .identifier ∧ p.tokens.peekNext.kind.startsArgument = true) := by
  rintro ⟨hname, -⟩
  rw [← hpeek, hname] at hkind
  cases hkind

theorem stmt_of_literal (hrest : p.tokens.rest = t :: u :: more)
    (hkind : t.kind.isLiteral = true) (hend : u.kind = .doubleSemicolon)
    (h : Constant.ofToken t = .ok value) :
    stmt p = .ok
      [⟨.exp (.single t (.constant t value p.store.slots.size) p.arena.size), t, p.arena.size⟩]
      (behindConstant (p.enter .block) value).advance.leaveScope := by
  obtain ⟨hpeek, hmore⟩ := TokenSequence.peek_of_rest hrest
  have hnext : (behindConstant (p.enter .block) value).peek = u :=
    (TokenSequence.peek_of_rest hmore).1
  have hpeek : p.peek = t := hpeek
  have hrun : operand (p.enter .block) =
      .ok (.constant t value p.store.slots.size) (behindConstant (p.enter .block) value) := by
    rw [operand_of_literal (p := p.enter .block) hrest hkind]
    subst hpeek
    exact constant_run (p := p.enter .block) h
  have hends : ExpEnds (behindConstant (p.enter .block) value).peek.kind := by
    rw [hnext, hend]
    exact .of_rests rfl
  have hexp : exp operand (p.enter .block) =
      .ok (.single t (.constant t value p.store.slots.size) p.arena.size)
        (behindConstant (p.enter .block) value) := by
    subst hpeek
    exact exp_of_operand (p := p.enter .block) (no_chain_of_literal hkind rfl) hrun hends
  have hlet : p.peek.kind ≠ .letWord := by
    rw [hpeek]
    exact TokenKind.ne_of_isLiteral hkind rfl
  rw [stmt_of_exp hlet, hpeek]
  apply thenLeaveScope_run
  apply expStmt_of_exp t p.arena.size hexp rfl
  rw [hnext]
  exact hend

theorem stmt_of_failed_literal (hrest : p.tokens.rest = t :: more)
    (hkind : t.kind.isLiteral = true) (h : Constant.ofToken t = .error problem) :
    ∃ q, stmt p = .error ⟨problem, t.location⟩ q := by
  obtain ⟨hpeek, -⟩ := TokenSequence.peek_of_rest hrest
  have hpeek : p.peek = t := hpeek
  subst hpeek
  have hrun : operand (p.enter .block) =
      .error ⟨problem, p.peek.location⟩ (p.enter .block).advance := by
    rw [operand_of_literal (p := p.enter .block) hrest hkind]
    exact constant_failed (p := p.enter .block) h
  have hexp : exp operand (p.enter .block) =
      .error ⟨problem, p.peek.location⟩ (p.enter .block).advance :=
    exp_of_failed_operand (p := p.enter .block) (no_chain_of_literal hkind rfl) hrun
  have hlet : p.peek.kind ≠ .letWord := TokenKind.ne_of_isLiteral hkind rfl
  refine ⟨(p.enter .block).advance.leaveScope, ?_⟩
  rw [stmt_of_exp hlet, thenLeaveScope, expStmt, bind_of_error hexp]

theorem stmts_last {ss : List Stmt} {q : Parser} (n : Nat) (hkind : p.peek.kind.isLiteral = true)
    (h : stmt p = .ok ss q) (hend : q.peek.kind = .endOfInput) : stmts (n + 1) p = .ok ss q := by
  have hmore : p.peek.kind ≠ .endOfInput := TokenKind.ne_of_isLiteral hkind rfl
  have hstarts : p.peek.kind ≠ .doubleSemicolon := TokenKind.ne_of_isLiteral hkind rfl
  rw [stmts_stmt n hmore hstarts, bind_of_run h, bind_of_run (Agree.stmts_at_end n q hend),
    List.append_nil]
  rfl

end Parse

section Programs

variable {ts : List Token} {t u : Token} {problem : Problem}

theorem parse_of_failed_literal (hts : ts.filter (!·.isNewline) = [t, u])
    (hkind : t.kind.isLiteral = true) (file : String)
    (h : Constant.ofToken t = .error problem) :
    parse (.ofList ts file) = .error ⟨problem, t.location⟩ := by
  have hrest : (Parser.ofTokens (.ofList ts file)).tokens.rest = [t, u] := hts
  obtain ⟨n, hn⟩ := TokenSequence.ahead_of_rest hrest
  have hpeek : (Parser.ofTokens (.ofList ts file)).peek = t :=
    (TokenSequence.peek_of_rest hrest).1
  obtain ⟨q, hstmt⟩ := Parse.stmt_of_failed_literal hrest hkind h
  have hrun : Parse.stmts (n + 1) (Parser.ofTokens (.ofList ts file)) =
      .error ⟨problem, t.location⟩ q := by
    rw [← hpeek] at hkind
    rw [Parse.stmts_stmt n (TokenKind.ne_of_isLiteral hkind rfl)
      (TokenKind.ne_of_isLiteral hkind rfl), bind_of_error hstmt]
  have hlength : (TokenSequence.ofList ts file).ahead.length = n + 1 := hn
  rw [parse, hlength, hrun]

/-- A program that is one literal has the value of the literal and its type. -/
theorem parse_of_literal {value : Constant} (hts : ts.filter (!·.isNewline) = [t, u])
    (hkind : t.kind.isLiteral = true) (hend : u.kind = .doubleSemicolon) (file : String)
    (h : Constant.ofToken t = .ok value) :
    ∃ program cell scope, parse (.ofList ts file) = .ok program ∧
      program.stmts = [⟨.exp (.single t (.constant t value cell) scope), t, scope⟩] ∧
      program.store.kind? cell = some value.kind := by
  have hrest : (Parser.ofTokens (.ofList ts file)).tokens.rest = [t, u] := hts
  obtain ⟨n, hn⟩ := TokenSequence.ahead_of_rest hrest
  have hpeek : (Parser.ofTokens (.ofList ts file)).peek = t :=
    (TokenSequence.peek_of_rest hrest).1
  have hstmt := Parse.stmt_of_literal hrest hkind hend h
  have hended : (TokenSequence.ofList ts file).advance.advance.Ended :=
    TokenSequence.Ended.advance (TokenSequence.Ended.advance rfl)
  have hnone : (TokenSequence.ofList ts file).advance.advance.peek.kind = .endOfInput := by
    rw [TokenSequence.peek_kind hended, TokenSequence.rest_advance, TokenSequence.rest_advance,
      show (TokenSequence.ofList ts file).rest = [t, u] from hts]
    rfl
  have hrun := Parse.stmts_last n (by rw [hpeek]; exact hkind) hstmt hnone
  have hlength : (TokenSequence.ofList ts file).ahead.length = n + 1 := hn
  rw [parse, hlength, hrun]
  exact ⟨_, _, _, rfl, rfl, Store.kind?_new _ _⟩

end Programs

end MiniMl
