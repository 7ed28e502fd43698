import MiniMl.Proofs.Parser.Lookahead
import MiniMl.Proofs.Typing.Locations

/-! # Where errors point

An error of the parser points at a token that was still to be read when the step began, and not at
one that is stored in a symbol. The trees carry only such tokens to the rules that report errors.
-/

namespace MiniMl

theorem Constant.category_of_error {token : Token} {problem : Problem}
    (h : Constant.ofToken token = .error problem) : problem.category ≠ .lexical := by
  unfold Constant.ofToken at h
  split at h
  · split at h
    · cases h
    · cases h
      exact nofun
  · split at h
    · cases h
    · cases h
      exact nofun
  all_goals cases h

structure Parser.Within (L : Location → Prop) (p : Parser) : Prop where
  rest : ∀ t ∈ p.tokens.rest, L t.location
  sentinel : L p.tokens.sentinel.location

namespace Parser.Within

variable {L : Location → Prop} {p : Parser}

theorem peek (h : p.Within L) : L p.peek.location := by
  rw [Parser.peek, TokenSequence.peek_eq]
  cases hrest : p.tokens.rest with
  | nil => exact h.sentinel
  | cons t ts => exact h.rest t (by rw [hrest]; exact List.mem_cons_self)

theorem advance (h : p.Within L) : p.advance.Within L := by
  constructor
  · intro t ht
    rw [Parser.advance, TokenSequence.rest_advance] at ht
    exact h.rest t (List.mem_of_mem_tail ht)
  · change L p.tokens.advance.sentinel.location
    rw [TokenSequence.sentinel_advance]
    exact h.sentinel

end Parser.Within

namespace Parse

variable {L : Location → Prop} {α β : Type} {made : α → Prop} {made' : β → Prop} {x : Parse α}
  {m : α → Parse β}

/-- A success leaves only locations with the property ahead, and an error is at one. -/
inductive Located (L : Location → Prop) (made : α → Prop) :
    EStateM.Result Diagnostic Parser α → Prop where
  | ok {a : α} {p : Parser} : made a → p.Within L → Located L made (.ok a p)
  | error {d : Diagnostic} {p : Parser} : d.IsAt L → Located L made (.error d p)

/-- Every error of the step is at one of the locations ahead, and so is what it makes. -/
def Locates (L : Location → Prop) (made : α → Prop) (x : Parse α) : Prop :=
  ∀ ⦃p : Parser⦄, p.Within L → Located L made (x p)

theorem Still.locates (hx : Still x) (herror : ∀ ⦃p d q⦄, x p = .error d q → d.IsAt L) :
    Locates L (fun _ => True) x := by
  intro p hp
  cases hrun : x p with
  | ok a q =>
    have htokens := (hx hrun).1
    exact .ok trivial ⟨htokens ▸ hp.rest, htokens ▸ hp.sentinel⟩
  | error d q => exact .error (herror hrun)

namespace Locates

theorem seq (hx : Locates L made x) (hm : ∀ a, made a → Locates L made' (m a)) :
    Locates L made' (x >>= m) := by
  intro p hp
  have hrun := hx hp
  change Located L made' (EStateM.bind x m p)
  unfold EStateM.bind
  generalize x p = r at hrun
  cases hrun with
  | ok ha hq => exact hm _ ha hq
  | error hd => exact .error hd

theorem map {wrap : α → β} (hx : Locates L made x) (hwrap : ∀ a, made a → made' (wrap a)) :
    Locates L made' (wrap <$> x) := by
  rw [map_eq_pure_bind]
  exact hx.seq fun a ha _ hp => .ok (hwrap a ha) hp

theorem forget (hx : Locates L made x) : Locates L (fun _ => True) x := by
  intro p hp
  have hrun := hx hp
  generalize x p = r at hrun
  cases hrun with
  | ok _ hq => exact .ok trivial hq
  | error hd => exact .error hd

theorem pure {a : α} (ha : made a) : Locates L made (pure a) := fun _ hp => .ok ha hp

theorem throw {d : Diagnostic} (hd : d.IsAt L) : Locates L made (throw d) :=
  fun _ _ => .error hd

theorem peek : Locates L (fun t => L t.location) peek := fun _ hp => .ok hp.peek hp

theorem peekKind : Locates L (fun _ => True) peekKind := fun _ hp => .ok trivial hp

theorem peekNext : Locates L (fun _ => True) peekNext := fun _ hp => .ok trivial hp

theorem hasTokens : Locates L (fun _ => True) hasTokens := fun _ hp => .ok trivial hp

theorem tokensAhead : Locates L (fun _ => True) tokensAhead := fun _ hp => .ok trivial hp

theorem advance : Locates L (fun t => L t.location) advance := fun _ hp => .ok hp.peek hp.advance

theorem tryConsume (kind : TokenKind) :
    Locates L (fun o => ∀ t ∈ o, L t.location) (tryConsume kind) := by
  intro p hp
  rw [tryConsume_run, Parser.taken?, Parser.skip]
  split
  · refine .ok (fun t ht => ?_) hp.advance
    obtain rfl := Option.mem_some.mp ht
    exact hp.peek
  · exact .ok (fun t ht => by cases ht) hp

theorem expect (kind : TokenKind) : Locates L (fun t => L t.location) (expect kind) := by
  intro p hp
  rw [expect_run]
  split
  · exact .ok hp.peek hp.advance
  · refine .error ⟨hp.peek, ?_⟩
    unfold TokenSequence.mismatch
    dsimp only
    split
    · exact nofun
    · exact nofun

theorem unexpected : Locates L made unexpected := by
  refine peek.seq fun token htoken => throw ⟨htoken, ?_⟩
  dsimp only
  split
  · exact nofun
  · exact nofun

theorem currentScope : Locates L (fun _ => True) currentScope := fun _ hp => .ok trivial hp

theorem enterScope (kind : ScopeKind) : Locates L (fun _ => True) (enterScope kind) :=
  (Still.enterScope kind).locates fun _ _ _ h => by cases h

theorem leaveScope : Locates L (fun _ => True) leaveScope :=
  Still.leaveScope.locates fun _ _ _ h => by cases h

theorem thenLeaveScope (hx : Locates L made x) : Locates L made (thenLeaveScope x) := by
  intro p hp
  have hrun := hx hp
  unfold Parse.thenLeaveScope
  generalize x p = r at hrun
  cases hrun with
  | ok ha hq => exact .ok ha ⟨hq.rest, hq.sentinel⟩
  | error hd => exact .error hd

theorem appendToCurrent (source : ScopeId) : Locates L (fun _ => True) (appendToCurrent source) :=
  (Still.appendToCurrent source).locates fun _ _ _ h => by cases h

theorem define (x : Symbol) : Locates L (fun _ => True) (define x) :=
  (Still.define x).locates fun _ _ _ h => by cases h

theorem defineTag (x : Symbol) : Locates L (fun _ => True) (defineTag x) :=
  (Still.defineTag x).locates fun _ _ _ h => by cases h

theorem defineWhen (condition : Prop) [Decidable condition] (x : Symbol) {m : Unit → Parse β}
    (hm : Locates L made' (m ())) :
    Locates L made' (if condition then Parse.define x >>= m else m ()) := by
  split
  · exact (define x).seq fun _ _ => hm
  · exact hm

theorem defineAll (xs : List Symbol) : Locates L (fun _ => True) (defineAll xs) := by
  refine (Still.defineAll xs).locates fun p d q h => ?_
  rw [defineAll_run] at h
  cases h

theorem defineAllAtTop (bs : List Binding) : Locates L (fun _ => True) (defineAllAtTop bs) := by
  refine (Still.defineAllAtTop bs).locates fun p d q h => ?_
  rw [defineAllAtTop_run] at h
  cases h

theorem resolve {name : Token} (hname : L name.location) :
    Locates L (fun _ => True) (resolve name) := by
  refine (Still.resolve name).locates fun p d q h => ?_
  cases hfind : p.arena.findToken? p.scope name with
  | none =>
    rw [resolve_missing hfind] at h
    cases h
    exact ⟨hname, nofun⟩
  | some y =>
    rw [resolve_found hfind] at h
    cases h

theorem typing {rule : Typing α} (hrule : rule.Locates L) :
    Locates L (fun _ => True) (typing rule) := by
  refine (Still.typing rule).locates fun p d q h => ?_
  unfold Parse.typing at h
  cases hrun : rule p.store with
  | ok a s =>
    rw [hrun] at h
    cases h
  | error e s =>
    rw [hrun] at h
    cases h
    exact hrule hrun

theorem newVariable (name : Token) (cell : Cell) :
    Locates L (fun _ => True) (newVariable name cell) :=
  (Still.newVariable name cell).locates fun _ _ _ h => by cases h

theorem newVariables (tokens : List Token) (cells : List Cell) :
    Locates L (fun _ => True) (newVariables tokens cells) := by
  refine (Still.newVariables tokens cells).locates fun p d q h => ?_
  rw [newVariables_run] at h
  cases h

theorem newFunction (name : Token) (signature : Signature) :
    Locates L (fun _ => True) (newFunction name signature) :=
  (Still.newFunction name signature).locates fun _ _ _ h => by cases h

theorem signatureOf {use : Token} (huse : L use.location) (x : Symbol) :
    Locates L (fun _ => True) (signatureOf use x) := by
  unfold Parse.signatureOf
  cases x.signature? with
  | none => exact throw ⟨huse, nofun⟩
  | some signature => exact pure trivial

section Loops

variable {item : Parse α}

theorem separated (separator : TokenKind) (hitem : Locates L made item) (b : Nat) :
    Locates L (fun xs => ∀ x ∈ xs, made x) (separated separator item b) := by
  induction b with
  | zero => exact hitem.seq fun x hx => pure (List.forall_mem_singleton.mpr hx)
  | succ b ih =>
    refine hitem.seq fun x hx => (tryConsume separator).seq fun token _ => ?_
    cases token with
    | none => exact pure (List.forall_mem_singleton.mpr hx)
    | some token => exact ih.seq fun xs hxs => pure (List.forall_mem_cons.mpr ⟨hx, hxs⟩)

theorem separatedBy (separator : TokenKind) (hitem : Locates L made item) :
    Locates L (fun xs => ∀ x ∈ xs, made x) (separatedBy separator item) :=
  tokensAhead.seq fun b _ => separated separator hitem b

theorem parenthesised (hitem : Locates L made item) :
    Locates L (fun xs => ∀ x ∈ xs, made x) (parenthesised item) := by
  refine (tryConsume .unit).seq fun token _ => ?_
  cases token with
  | some token => exact pure fun x hx => by cases hx
  | none =>
    refine (expect .openParen).seq fun _ _ => ?_
    refine (separatedBy .comma hitem).seq fun xs hxs => ?_
    exact (expect .closeParen).seq fun _ _ => pure hxs

end Loops

theorem constant : Locates L (fun t => L t.token.location) constant := by
  refine advance.seq fun token htoken => ?_
  cases hvalue : Constant.ofToken token with
  | error problem => exact throw ⟨htoken, Constant.category_of_error hvalue⟩
  | ok value => exact (typing (.new _)).seq fun cell _ => pure htoken

section Expressions

variable {op other : Parse Term} (hop : Locates L (fun t => L t.token.location) op)

include hop

theorem climb (b floor : Nat) {lhs : Term} (hlhs : L lhs.token.location) :
    Locates L (fun t => L t.token.location) (climb op b floor lhs) := by
  induction b generalizing floor lhs with
  | zero => exact pure hlhs
  | succ b ih =>
    refine peekKind.seq fun kind _ => ?_
    cases kind.power? with
    | none => exact pure hlhs
    | some power =>
      dsimp only
      split
      · exact pure hlhs
      · refine advance.seq fun token htoken => hop.seq fun first hfirst => ?_
        refine (ih _ hfirst).seq fun rhs hrhs => ?_
        refine (typing (.binary htoken hlhs hrhs)).seq fun cell _ => ?_
        exact ih _ hlhs

theorem operators : Locates L (fun t => L t.token.location) (operators op) :=
  hop.seq fun _ hfirst => tokensAhead.seq fun b _ => climb hop b 0 hfirst

theorem sequenceWithin (b : Nat) :
    Locates L (fun t => L t.token.location) (sequenceWithin op b) := by
  induction b with
  | zero => exact operators hop
  | succ b ih =>
    refine (operators hop).seq fun first hfirst => (tryConsume .semicolon).seq fun token _ => ?_
    cases token with
    | none => exact pure hfirst
    | some token => exact ih.seq fun second _ => pure hfirst

theorem sequence : Locates L (fun t => L t.token.location) (sequence op) :=
  tokensAhead.seq fun b _ => sequenceWithin hop b

theorem chainArguments (b : Nat) :
    Locates L (fun ts => ∀ t ∈ ts, L t.token.location) (chainArguments op b) := by
  induction b with
  | zero => exact pure fun t ht => by cases ht
  | succ b ih =>
    refine peekKind.seq fun kind _ => ?_
    split
    · refine hop.seq fun first hfirst => ih.seq fun others hothers => ?_
      exact pure (List.forall_mem_cons.mpr ⟨hfirst, hothers⟩)
    · exact pure fun t ht => by cases ht

theorem application : Locates L (fun e => L e.root.location) (application op) := by
  refine currentScope.seq fun scope _ => advance.seq fun name hname => ?_
  refine (resolve hname).seq fun symbol _ => (signatureOf hname symbol).seq fun signature _ => ?_
  refine (tokensAhead.seq fun b _ => chainArguments hop b).seq fun args hargs => ?_
  exact (typing (.call signature hname (List.forall_mem_map.mpr hargs))).seq fun _ _ => pure hname

theorem chainOr (hother : Locates L (fun t => L t.token.location) other) :
    Locates L (fun e => L e.root.location) (chainOr op other) := by
  refine peek.seq fun root hroot => peekNext.seq fun next _ => ?_
  split
  · exact application hop
  · exact currentScope.seq fun scope _ => hother.seq fun item _ => pure hroot

theorem exp : Locates L (fun e => L e.root.location) (exp op) := chainOr hop (sequence hop)

theorem signed : Locates L (fun t => L t.token.location) (signed op) := by
  refine advance.seq fun token htoken => hop.seq fun inner hinner => ?_
  exact (typing (.unary hinner)).seq fun cell _ => pure htoken

theorem name : Locates L (fun t => L t.token.location) (name op) := by
  refine advance.seq fun token htoken => (resolve htoken).seq fun symbol _ => ?_
  have hcall : Locates L (fun t : Term => L t.token.location)
      (do
        let signature ← Parse.signatureOf token symbol
        let args ← Parse.parenthesised (Parse.exp op)
        let cell ← Parse.typing (Typing.call token signature (args.map Exp.typed))
        Pure.pure (Term.call ⟨token, symbol⟩ args cell)) := by
    refine (signatureOf htoken symbol).seq fun signature _ => ?_
    refine (parenthesised (exp hop)).seq fun args hargs => ?_
    refine (typing (.call signature htoken (List.forall_mem_map.mpr hargs))).seq fun _ _ => ?_
    exact pure htoken
  refine peekKind.seq fun kind _ => ?_
  cases kind with
  | openParen => exact hcall
  | unit => exact hcall
  | _ => exact pure htoken

theorem grouping : Locates L (fun t => L t.token.location) (grouping op) := by
  refine advance.seq fun token htoken => (exp hop).seq fun first _ => ?_
  refine (tryConsume .comma).seq fun comma _ => ?_
  cases comma with
  | some comma =>
    refine (exp hop).seq fun second _ => (expect .closeParen).seq fun _ _ => ?_
    exact (typing (.new _)).seq fun cell _ => pure htoken
  | none => exact (expect .closeParen).seq fun _ _ => pure htoken

theorem projection : Locates L (fun t => L t.token.location) (projection op) := by
  refine advance.seq fun token htoken => (expect .openParen).seq fun _ _ => ?_
  refine (exp hop).seq fun first _ => (expect .comma).seq fun _ _ => ?_
  exact (exp hop).seq fun second _ => (expect .closeParen).seq fun _ _ => pure htoken

theorem branch : Locates L (fun b => L b.1.root.location) (branch op) := by
  refine (enterScope .block).seq fun scope _ => ?_
  refine (chainOr hop (operators hop)).seq fun e he => ?_
  exact leaveScope.seq fun _ _ => pure he

theorem elseBranch : Locates L (fun b => ∀ c ∈ b, L c.1.root.location) (elseBranch op) := by
  refine (tryConsume .elseWord).seq fun token _ => ?_
  cases token with
  | none => exact pure fun c hc => by cases hc
  | some token =>
    refine (branch hop).map fun b hb c hc => ?_
    obtain rfl := Option.mem_some.mp hc
    exact hb

theorem conditional : Locates L (fun t => L t.token.location) (conditional op) := by
  refine advance.seq fun token htoken => (exp hop).seq fun condition hcondition => ?_
  refine (expect .thenWord).seq fun _ _ => (branch hop).seq fun first hfirst => ?_
  refine (elseBranch hop).seq fun second hsecond => ?_
  refine (typing (.conditional hcondition hfirst fun x hx => ?_)).seq fun cell _ => ?_
  · obtain ⟨b, hb, rfl⟩ := Option.map_eq_some_iff.mp hx
    exact hsecond b hb
  · refine (appendToCurrent first.2).seq fun _ _ => ?_
    cases second with
    | none => exact pure htoken
    | some second => exact (appendToCurrent second.2).seq fun _ _ => pure htoken

theorem loop : Locates L (fun t => L t.token.location) (loop op) := by
  refine advance.seq fun token htoken => (exp hop).seq fun condition hcondition => ?_
  refine (expect .doWord).seq fun _ _ => (enterScope .block).seq fun scope _ => ?_
  refine (exp hop).seq fun body hbody => leaveScope.seq fun _ _ => ?_
  refine (expect .doneWord).seq fun _ _ => (typing (.loop hcondition hbody)).seq fun cell _ => ?_
  exact (appendToCurrent scope).seq fun _ _ => pure htoken

theorem function (name : Token) (isRec : Bool) :
    Locates L (fun _ => True) (function op name isRec) := by
  refine (parenthesised (expect .identifier)).seq fun tokens _ => ?_
  refine (typing (.signature _)).seq fun signature _ => ?_
  refine (newFunction name signature).seq fun symbol _ => defineWhen _ symbol ?_
  refine (enterScope .function).seq fun scope _ => ?_
  refine (newVariables tokens signature.params).seq fun params _ => ?_
  refine (defineAll params).seq fun _ _ => (expect .assignment).seq fun _ _ => ?_
  refine (exp hop).seq fun body hbody => leaveScope.seq fun _ _ => ?_
  refine (typing (.functionBody signature hbody)).seq fun _ _ => defineWhen _ symbol ?_
  exact (defineTag symbol).seq fun _ _ => pure trivial

theorem binding (isRec : Bool) : Locates L (fun _ => True) (binding op isRec) := by
  refine (expect .identifier).seq fun name _ => ?_
  have hvalue : Locates L (fun _ : Binding => True)
      (do
        let _ ← Parse.expect .assignment
        let body ← Parse.exp op
        let symbol ← Parse.newVariable name body.cell
        Parse.define symbol
        Pure.pure (Binding.value symbol body)) := by
    refine (expect .assignment).seq fun _ _ => (exp hop).seq fun body _ => ?_
    refine (newVariable name body.cell).seq fun symbol _ => ?_
    exact (define symbol).seq fun _ _ => pure trivial
  refine peekKind.seq fun kind _ => ?_
  cases kind with
  | openParen => exact function hop name isRec
  | unit => exact function hop name isRec
  | _ => exact hvalue

theorem bindings (isRec : Bool) : Locates L (fun _ => True) (bindings op isRec) :=
  (separatedBy .andWord (binding hop isRec)).forget

theorem finishLet {token : Token} (htoken : L token.location) (bs : List Binding)
    (scope : ScopeId) : Locates L (fun t => L t.token.location) (finishLet op token bs scope) := by
  refine (expect .inWord).seq fun _ _ => (exp hop).seq fun body _ => ?_
  exact leaveScope.seq fun _ _ => (appendToCurrent scope).seq fun _ _ => pure htoken

theorem letIn : Locates L (fun t => L t.token.location) (letIn op) := by
  refine advance.seq fun token htoken => (tryConsume .recWord).seq fun recToken _ => ?_
  refine (enterScope .block).seq fun scope _ => (bindings hop _).seq fun bs _ => ?_
  exact finishLet hop htoken bs scope

theorem operandStep : Locates L (fun t => L t.token.location) (operandStep op) := by
  refine peekKind.seq fun kind _ => ?_
  cases kind with
  | identifier => exact name hop
  | int | float | bool | string | unit => exact constant
  | plus | dash => exact signed hop
  | openParen => exact grouping hop
  | fstWord | sndWord => exact projection hop
  | ifWord => exact conditional hop
  | whileWord => exact loop hop
  | letWord => exact letIn hop
  | _ => exact unexpected

end Expressions

theorem operand : Locates L (fun t => L t.token.location) operand :=
  tokensAhead.seq fun b _ => operand_induction (P := Locates L fun t => L t.token.location)
    unexpected (fun _ => operandStep) b

theorem letStmt {token : Token} (htoken : L token.location) (block : ScopeId) :
    Locates L (fun _ => True) (letStmt token block) := by
  refine advance.seq fun _ _ => (tryConsume .recWord).seq fun recToken _ => ?_
  refine (enterScope .block).seq fun scope _ => (bindings operand _).seq fun bs _ => ?_
  refine peekKind.seq fun kind _ => ?_
  split
  · refine (finishLet operand htoken bs scope).seq fun item _ => ?_
    exact (expect .doubleSemicolon).seq fun _ _ => pure trivial
  · refine leaveScope.seq fun _ _ => (expect .doubleSemicolon).seq fun _ _ => ?_
    exact (defineAllAtTop bs).seq fun _ _ => pure trivial

theorem expStmt (token : Token) (block : ScopeId) :
    Locates L (fun _ => True) (expStmt token block) := by
  refine (exp operand).seq fun e _ => (expect .doubleSemicolon).seq fun _ _ => ?_
  cases e.var? with
  | none => exact pure trivial
  | some use => exact pure trivial

theorem stmt : Locates L (fun _ => True) stmt := by
  refine peek.seq fun token htoken => (enterScope .block).seq fun block _ => thenLeaveScope ?_
  split
  · exact letStmt htoken block
  · exact expStmt token block

theorem stmts (b : Nat) : Locates L (fun _ => True) (stmts b) := by
  induction b with
  | zero => exact pure trivial
  | succ b ih =>
    refine hasTokens.seq fun more _ => ?_
    split
    · refine (tryConsume .doubleSemicolon).seq fun token _ => ?_
      cases token with
      | some token => exact ih
      | none => exact stmt.seq fun first _ => ih.seq fun others _ => pure trivial
    · exact pure trivial

end Locates

end Parse

theorem parse_error {tokens : TokenSequence} {d : Diagnostic} (h : parse tokens = .error d) :
    ∃ p, Parse.stmts tokens.ahead.length (.ofTokens tokens) = .error d p := by
  unfold parse at h
  split at h
  next => cases h
  next e p hp =>
    cases h
    exact ⟨p, hp⟩

/-- The end of the input stands at the last token that is no newline. -/
theorem TokenSequence.sentinel_visible (p : List Token) {q : List Token} (file : String)
    (hq : q.filter (!·.isNewline) ≠ []) :
    ∃ t ∈ q.filter (!·.isNewline), (ofList (p ++ q) file).sentinel.location = t.location := by
  obtain ⟨u, hu⟩ := List.exists_mem_of_ne_nil _ hq
  obtain ⟨huq, hvisible⟩ := List.mem_filter.mp hu
  have hsome : (q.reverse.find? (!·.isNewline)).isSome = true :=
    List.find?_isSome.mpr ⟨u, List.mem_reverse.mpr huq, hvisible⟩
  obtain ⟨t, ht⟩ := Option.isSome_iff_exists.mp hsome
  have hmem := List.mem_reverse.mp (List.mem_of_find?_eq_some ht)
  have hseen : (!t.isNewline) = true := by simpa using List.find?_some ht
  refine ⟨t, List.mem_filter.mpr ⟨hmem, hseen⟩, ?_⟩
  simp only [ofList, List.reverse_append, List.find?_append, ht, Option.some_or, Option.map_some,
    Option.getD_some]

/-- The parser points at a token that can be seen, also where it misses one at the end. -/
theorem parse_error_visible {tokens : List Token} {file : String} {d : Diagnostic}
    (h : parse (.ofList tokens file) = .error d) :
    d.IsAt fun l => ∃ t ∈ tokens.filter (!·.isNewline), l = t.location := by
  obtain ⟨p, hrun⟩ := parse_error h
  have hwithin : (Parser.ofTokens (.ofList tokens file)).Within
      fun l => ∃ t ∈ tokens.filter (!·.isNewline), l = t.location := by
    refine ⟨fun t ht => ⟨t, ht, rfl⟩, TokenSequence.sentinel_visible [] file ?_⟩
    intro hnil
    have hdone : (Parser.ofTokens (.ofList tokens file)).peek.kind = .endOfInput := by
      rw [Parser.peek, TokenSequence.peek_eq]
      change ((tokens.filter (!·.isNewline)).headD _).kind = _
      rw [hnil]
      rfl
    rw [Parse.Agree.stmts_at_end _ _ hdone] at hrun
    cases hrun
  have hlocated := Parse.Locates.stmts (TokenSequence.ofList tokens file).ahead.length hwithin
  rw [hrun] at hlocated
  cases hlocated with
  | error hd => exact hd

end MiniMl
