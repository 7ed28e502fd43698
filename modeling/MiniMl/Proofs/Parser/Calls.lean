import MiniMl.Proofs.Parser.LetStatements
import MiniMl.Proofs.Scope.Balance
import MiniMl.Proofs.Typing.Locations

/-! # Chains and calls

A function is applied to arguments that follow it, or to arguments in parentheses. The first are read
as operands one after the other, the second as expressions between commas; where each argument is an
operand that starts no chain, both come to the same.
-/

namespace MiniMl

def argumentKinds : List TokenKind :=
  [.identifier, .int, .float, .bool, .string, .fstWord, .sndWord]

theorem TokenKind.startsArgument_iff {kind : TokenKind} :
    kind.startsArgument = true ↔ kind ∈ argumentKinds := by
  cases kind
  all_goals decide

theorem TokenKind.unopened_of_startsArgument {kind : TokenKind} (h : kind.startsArgument = true) :
    kind.opensArguments = false := by
  cases kind
  all_goals first | rfl | cases h

theorem TokenKind.not_startsArgument_of_opens {kind : TokenKind} (h : kind.opensArguments = true) :
    kind.startsArgument = false := by
  cases kind
  all_goals first | rfl | cases h

/-- What can stand behind an argument in parentheses. -/
def TokenKind.EndsArgument (kind : TokenKind) : Prop := kind = .comma ∨ kind = .closeParen

theorem TokenKind.EndsArgument.ends {kind : TokenKind} (h : kind.EndsArgument) :
    kind.opensArguments = false ∧ kind.startsArgument = false ∧ Parse.ExpEnds kind := by
  rcases h with rfl | rfl
  all_goals exact ⟨rfl, rfl, rfl, by decide⟩

def Term.alone (t : Term) (scope : ScopeId) : Exp := .single t.token t scope

theorem Term.map_alone_typed (ts : List Term) (scope : ScopeId) :
    (ts.map (Term.alone · scope)).map Exp.typed = ts.map Term.typed := by
  rw [List.map_map]
  rfl

theorem Arena.lt_of_resolve {a : Arena} {id : ScopeId} {key : Key} {x : Symbol}
    (h : a.resolve id key = some x) : id < a.size := by
  refine Nat.lt_of_not_le fun hid => ?_
  have hnone : a.scopes[id]? = none := Array.getElem?_eq_none hid
  unfold Arena.resolve at h
  cases hsize : a.size with
  | zero =>
    rw [hsize] at h
    cases h
  | succ n =>
    rw [hsize, Arena.lookup, hnone] at h
    cases h

namespace Parse

variable {p q r u : Parser} {op : Parse Term} {t : Term} {ts : List Term} {o : List Token}
  {os : List (List Token)} {args us vs : List Token}

/-! Operands that can be arguments of a chain. -/

/-- An argument of a chain may stand in front of whatever is not read as arguments of its own. -/
theorem SteadyOperand.argument (hop : SteadyOperand us vs op) (hp : p.tokens.Ended)
    (hstart : p.peek.kind.startsArgument = true) :
    SteadyAt us vs (Unopened us vs) 1 (Parse.operandStep op) p := by
  refine SteadyAt.peekKind_seq ?_ (.inl Nat.one_pos)
  cases hkind : p.peek.kind with
  | identifier => exact hop.name id hp (by rw [hkind]; decide)
  | int | float | bool | string => exact Steady.constant hp (by rw [hkind]; decide)
  | fstWord | sndWord =>
    exact (hop.projection hp (by rw [hkind]; decide)).weaken (Nat.le_succ 1)
  | _ =>
    rw [hkind] at hstart
    cases hstart

theorem argument_steady (hp : p.tokens.Ended) (hstart : p.peek.kind.startsArgument = true) :
    SteadyAt us vs (Unopened us vs) 1 operand p := by
  refine SteadyAt.tokensAhead_seq hp Term.relocate_id
    (fun _ _ _ hb hb' => Agree.operandWithin hb hb') fun b => ?_
  cases b with
  | zero => exact .never fun _ _ => unexpected_ok
  | succ b => exact (SteadyOperand.operandWithin b).argument hp hstart

/-- Errors about an argument are reported at its first token, and a name that more is read behind is
one with arguments in parentheses. -/
theorem argument_cases (hstart : p.peek.kind.startsArgument = true)
    (h : operandStep op p = .ok t q) :
    t.token = p.peek ∧ (p.peek.kind = .identifier →
      p.advance.peek.kind.opensArguments = true ∨ q = p.advance) := by
  rw [operandStep, peekKind_bind] at h
  cases hkind : p.peek.kind
  all_goals rw [hkind] at h hstart
  case identifier =>
    obtain ⟨x, -, ⟨f, args, r, cell, s, -, hargs, -, rfl, rfl⟩ | ⟨rfl, rfl⟩⟩ := name_ok h
    · refine ⟨rfl, fun _ => .inl ?_⟩
      cases hargs with
      | unit hunit =>
        rw [hunit]
        rfl
      | items hopen _ _ =>
        rw [hopen]
        rfl
    · exact ⟨rfl, fun _ => .inr rfl⟩
  case int | float | bool | string =>
    obtain ⟨value, cell, s, -, -, rfl, -⟩ := constant_ok h
    exact ⟨rfl, fun hname => absurd hname (by decide)⟩
  case fstWord | sndWord =>
    obtain ⟨first, r, second, u, -, -, -, -, -, rfl, -⟩ := projection_ok h
    exact ⟨rfl, fun hname => absurd hname (by decide)⟩
  all_goals cases hstart

theorem operand_consumes (hp : p.tokens.Ended) (h : operand p = .ok t q) :
    q.tokens.Ended ∧ q.left + 1 ≤ p.left := by
  have hoperand : SteadyOperand [] [] operand := .operand
  have hcarries := hoperand.steady hp h
  exact ⟨hcarries.ended hp, hcarries.read⟩

/-- A name that starts no call is one token. So the first two tokens of an argument start no chain,
unless another argument is behind it. -/
theorem argument_no_chain (hp : p.tokens.Ended) (hstart : p.peek.kind.startsArgument = true)
    (h : operandStep op p = .ok t q) (hnext : (lookahead q.tokens.rest).startsArgument = false) :
    ¬ (p.peek.kind = .identifier ∧ p.tokens.peekNext.kind.startsArgument = true) := by
  rintro ⟨hidentifier, hargument⟩
  rw [TokenSequence.peekNext_eq_advance] at hargument
  change p.advance.peek.kind.startsArgument = true at hargument
  rcases (argument_cases hstart h).2 hidentifier with hopens | rfl
  · rw [TokenKind.not_startsArgument_of_opens hopens] at hargument
    cases hargument
  · have hended : p.advance.tokens.Ended := hp.advance
    rw [Parser.peek, TokenSequence.peek_kind hended, hnext] at hargument
    cases hargument

theorem exp_of_argument (hp : p.tokens.Ended) (hstart : p.peek.kind.startsArgument = true)
    (h : operand p = .ok t q) (hrest : p.tokens.rest = o ++ q.tokens.rest) (hu : u.tokens.Ended)
    (hsame : u = p.reading u.tokens) (hrest' : u.tokens.rest = o ++ vs)
    (hleft : (lookahead q.tokens.rest).opensArguments = false)
    (hright : (lookahead vs).EndsArgument) :
    ∃ s, exp operand u = .ok (t.alone p.scope) (q.reading s) ∧ s.rest = vs ∧
      s.Ended := by
  obtain ⟨hunopened, hnext, hends⟩ := hright.ends
  have hswapped : p.Swapped q.tokens.rest vs u := ⟨hp, hu, ⟨o, hrest, hrest'⟩, hsame⟩
  obtain ⟨u', hrun, hswapped'⟩ :=
    (argument_steady hp hstart h).again hswapped (.inr ⟨rfl, hleft, hunopened⟩)
  have hu' : u'.tokens.rest = vs := by
    obtain ⟨front, hfront, hfront'⟩ := hswapped'.rest
    rw [List.self_eq_append_left] at hfront
    rw [hfront', hfront]
    rfl
  have hpeek : u.peek = p.peek := by
    have hread := (operand_consumes hp h).2
    exact (hswapped.next (by change q.left < p.left; omega)).1
  have hstart' : u.peek.kind.startsArgument = true := hpeek ▸ hstart
  obtain ⟨s₁, hstep, hs₁, -⟩ := step_of_operand hu hrun
  have htoken := (argument_cases hstart' hstep).1
  have hnochain := argument_no_chain hu hstart' hstep
    (by change (lookahead s₁.rest).startsArgument = false; rw [hs₁, hu', hnext])
  have hexp := exp_of_operand hnochain hrun (by rw [(hswapped'.stop rfl).2]; exact hends)
  refine ⟨u'.tokens, ?_, hu', hswapped'.ended'⟩
  rw [← hswapped'.same, hexp, Term.alone, htoken, hsame]
  rfl

/-- The operands are read as a whole each, one after the other. -/
inductive Operands : Parser → List (List Token) → List Term → Parser → Prop where
  | nil {p : Parser} : Operands p [] [] p
  | cons {p q r : Parser} {o : List Token} {os : List (List Token)} {t : Term} {ts : List Term} :
      p.peek.kind ∈ argumentKinds → operand p = .ok t q →
      p.tokens.rest = o ++ q.tokens.rest → Operands q os ts r →
      Operands p (o :: os) (t :: ts) r

inductive Commas : List (List Token) → List Token → Prop where
  | last {o : List Token} : Commas [o] o
  | cons {o args : List Token} {os : List (List Token)} {comma : Token} : comma.kind = .comma →
      Commas os args → Commas (o :: os) (o ++ comma :: args)

theorem Commas.length (h : Commas os args) : os.length ≤ args.length + 1 := by
  induction h with
  | last => exact Nat.le_add_left _ _
  | cons _ _ ih =>
    rw [List.length_cons, List.length_append, List.length_cons]
    omega

namespace Operands

theorem rest (h : Operands p os ts r) : p.tokens.rest = os.flatten ++ r.tokens.rest := by
  induction h with
  | nil => rfl
  | cons _ _ hrest _ ih => rw [hrest, ih, List.flatten_cons, List.append_assoc]

theorem length (h : Operands p os ts r) (hp : p.tokens.Ended) : os.length + r.left ≤ p.left := by
  induction h with
  | nil => exact Nat.le_of_eq (Nat.zero_add _)
  | cons _ hrun _ _ ih =>
    obtain ⟨hq, hread⟩ := operand_consumes hp hrun
    have hlength := ih hq
    rw [List.length_cons]
    omega

theorem ended (h : Operands p os ts r) (hp : p.tokens.Ended) : r.tokens.Ended := by
  induction h with
  | nil => exact hp
  | cons _ hrun _ _ ih => exact ih (operand_consumes hp hrun).1

theorem chain (h : Operands p os ts r) (hstop : r.peek.kind.startsArgument = false) {b : Nat}
    (hb : os.length ≤ b) : chainArguments operand b p = .ok ts r := by
  induction h generalizing b with
  | nil =>
    cases b with
    | zero => rfl
    | succ b =>
      rw [chainArguments, peekKind_bind, if_neg (by rw [hstop]; decide)]
      rfl
  | @cons p q r o os t ts hstart hrun _ _ ih =>
    obtain ⟨b, rfl⟩ : ∃ n, b = n + 1 := Nat.exists_eq_succ_of_ne_zero (by
      rw [List.length_cons] at hb
      omega)
    rw [chainArguments, peekKind_bind, if_pos (TokenKind.startsArgument_iff.mpr hstart),
      bind_of_run hrun, bind_of_run (ih hstop (Nat.le_of_succ_le_succ hb))]
    rfl

theorem separated (h : Operands p os ts r) (hcommas : Commas os args) {closing : Token}
    {more : List Token} (hp : p.tokens.Ended) (hvalid : p.scopes.Valid)
    (hstop : (lookahead r.tokens.rest).opensArguments = false)
    (hclosing : closing.kind = .closeParen) (hu : u.tokens.Ended)
    (hsame : u = p.reading u.tokens) (hrest : u.tokens.rest = args ++ closing :: more) {b : Nat}
    (hb : os.length ≤ b + 1) :
    ∃ s, separated .comma (exp operand) b u =
        .ok (ts.map (Term.alone · p.scope)) (r.reading s) ∧
      s.rest = closing :: more ∧ s.Ended := by
  induction h generalizing args u b with
  | nil => cases hcommas
  | @cons p q r o os t ts hstart hrun horead hothers ih =>
    have hstart := TokenKind.startsArgument_iff.mpr hstart
    cases hcommas with
    | last =>
      cases hothers
      obtain ⟨s, hexp, hs, hended⟩ := exp_of_argument hp hstart hrun horead hu hsame hrest hstop
        (.inr hclosing)
      refine ⟨s, ?_, hs, hended⟩
      cases b with
      | zero =>
        rw [Parse.separated, bind_of_run hexp]
        rfl
      | succ b =>
        have hnext : (q.reading s).peek.kind ≠ .comma := by
          rw [(peek_of_rest (p := q.reading s) hended hs).1, hclosing]
          decide
        rw [Parse.separated, bind_of_run hexp, tryConsume_bind, if_neg hnext]
        rfl
    | @cons _ _ comma args hcomma hcommas =>
      rw [List.append_assoc, List.cons_append] at hrest
      obtain ⟨hq, -⟩ := operand_consumes hp hrun
      have hscopes := operand_extends hrun hvalid
      have hnext : (lookahead q.tokens.rest).opensArguments = false := by
        cases hothers with
        | nil => exact hstop
        | cons hstart' _ _ _ =>
          rw [← TokenSequence.peek_kind hq]
          exact TokenKind.unopened_of_startsArgument (TokenKind.startsArgument_iff.mpr hstart')
      obtain ⟨s, hexp, hs, hended⟩ := exp_of_argument hp hstart hrun horead hu hsame hrest hnext
        (.inl hcomma)
      obtain ⟨hpeek, hafter⟩ := peek_of_rest (p := q.reading s) hended hs
      have hpos : 0 < os.length := by
        cases hcommas with
        | last => exact Nat.zero_lt_one
        | cons => exact Nat.succ_pos _
      rw [List.length_cons] at hb
      obtain ⟨b, rfl⟩ : ∃ n, b = n + 1 := Nat.exists_eq_succ_of_ne_zero (by omega)
      have hb' : os.length ≤ b + 1 := by omega
      obtain ⟨s', hexps, hs', hended'⟩ := ih (u := (q.reading s).advance) hcommas hq
        (hscopes.valid hvalid) hstop hended.advance rfl hafter hb'
      refine ⟨s', ?_, hs', hended'⟩
      rw [Parse.separated, bind_of_run hexp, tryConsume_bind, if_pos (hpeek.trans hcomma)]
      dsimp only
      rw [bind_of_run hexps, List.map_cons]
      have hscope : q.scope = p.scope := hscopes.scope
      rw [hscope]
      rfl

theorem parenthesised (h : Operands p os ts r) (hcommas : Commas os args)
    {opening closing : Token} {more : List Token} (hp : p.tokens.Ended) (hvalid : p.scopes.Valid)
    (hstop : (lookahead r.tokens.rest).opensArguments = false)
    (hopening : opening.kind = .openParen) (hclosing : closing.kind = .closeParen)
    (hu : u.tokens.Ended) (hsame : u = p.reading u.tokens)
    (hrest : u.tokens.rest = opening :: (args ++ closing :: more)) :
    ∃ s, parenthesised (exp operand) u = .ok (ts.map (Term.alone · p.scope)) (r.reading s) ∧
      s.rest = more ∧ s.Ended := by
  obtain ⟨hpeek, hafter⟩ := peek_of_rest hu hrest
  have hopen := hpeek.trans hopening
  have hbound : os.length ≤ u.advance.tokens.ahead.length + 1 := by
    have hleft := u.advance.left_le_ahead
    have hlength := hcommas.length
    rw [Parser.left, hafter, List.length_append] at hleft
    omega
  obtain ⟨s, hitems, hs, hended⟩ := h.separated hcommas hp hvalid hstop hclosing
    (u := u.advance) hu.advance (by rw [hsame]; rfl) hafter hbound
  obtain ⟨hclose, hmore⟩ := peek_of_rest (p := r.reading s) hended hs
  have hseparated : separatedBy .comma (exp operand) u.advance =
      .ok (ts.map (Term.alone · p.scope)) (r.reading s) := hitems
  refine ⟨s.advance, ?_, hmore, hended.advance⟩
  rw [Parse.parenthesised, tryConsume_bind, if_neg (by rw [hopen]; decide)]
  dsimp only
  rw [bind_of_run (expect_ok.mpr ⟨hopen, rfl, rfl⟩)]
  exact (bind_of_run hseparated).trans
    (bind_of_run (expect_ok.mpr ⟨hclose.trans hclosing, rfl, rfl⟩))

end Operands

/-- What can be wrong where `head` is applied to arguments, and where. -/
inductive CallError (p : Parser) (head : Token) (args : List Term) : Diagnostic → Prop where
  | undefined : p.arena.findToken? p.scope head = none →
      CallError p head args ⟨.undefinedVar head.value, head.location⟩
  | notAFunction {x : Symbol} : p.arena.findToken? p.scope head = some x → x.signature? = none →
      CallError p head args (.notAFunction head)
  | arity {x : Symbol} {f : Signature} : p.arena.findToken? p.scope head = some x →
      x.signature? = some f → args.length ≠ f.arity →
      CallError p head args ⟨.arityMismatch head.value f.arity args.length, head.location⟩
  | argument {x : Symbol} {f : Signature} {arg : Term} {expected found : String} :
      p.arena.findToken? p.scope head = some x → x.signature? = some f →
      args.length = f.arity → arg ∈ args →
      CallError p head args ⟨.typeMismatch expected found, arg.token.location⟩

/-- Both forms succeed with the same arguments and leave the same state, or both fail alike. -/
inductive SameApplication (f : Location → Location) (p : Parser) (head : Token) (args : List Term)
    (more more' : List Token) :
    EStateM.Result Diagnostic Parser Exp → EStateM.Result Diagnostic Parser Exp → Prop where
  | ok {x : Symbol} {signature : Signature} {p' q' : Parser} {s : TokenSequence} :
      p.arena.findToken? p.scope head = some x → x.signature? = some signature →
      p'.tokens.rest = more → s.rest = more' → (p'.reading s).Relaid f q' →
      SameApplication f p head args more more'
        (.ok (.apply ⟨head, x⟩ args signature.result p.scope) p')
        (.ok (.relocate f (.single head
          (.call ⟨head, x⟩ (args.map (Term.alone · p.scope)) signature.result) p.scope)) q')
  | error {d : Diagnostic} {p' q' : Parser} : CallError p head args d →
      SameApplication f p head args more more' (.error d p') (.error (d.relocate f) q')

/-! Both forms resolve the name first and type the call last. -/

theorem signatureOf_function {x : Symbol} {f : Signature} (hf : x.signature? = some f) (use : Token)
    (p : Parser) : signatureOf use x p = .ok f p := by
  unfold signatureOf
  rw [hf]
  rfl

theorem signatureOf_variable {x : Symbol} (hx : x.signature? = none) (use : Token) (p : Parser) :
    signatureOf use x p = .error (.notAFunction use) p := by
  unfold signatureOf
  rw [hx]
  rfl

/-- One application in both forms: `p` reads it as a chain, and `u`, which is the same state in front
of other tokens, as a call. -/
structure BothForms (p u : Parser) (os : List (List Token)) (ts : List Term) (r : Parser)
    (more : List Token) : Prop where
  ended : p.tokens.Ended
  head : p.peek.kind = .identifier
  operands : Operands p.advance os ts r
  stop : lookahead r.tokens.rest = .doubleSemicolon
  ended' : u.tokens.Ended
  same : u = p.reading u.tokens
  call : ∃ opening args closing, opening.kind = .openParen ∧ Commas os args ∧
    closing.kind = .closeParen ∧ u.tokens.rest = p.peek :: opening :: (args ++ closing :: more)
  stop' : lookahead more = .doubleSemicolon

namespace BothForms

variable {more : List Token} {x : Symbol} {f : Signature} (h : BothForms p u os ts r more)

include h

theorem application_run (hx : p.arena.findToken? p.scope p.peek = some x)
    (hf : x.signature? = some f) :
    application operand p =
      (do
        let cell ← typing (Typing.call p.peek f (ts.map Term.typed))
        pure (Exp.apply ⟨p.peek, x⟩ ts cell p.scope)) r := by
  have hlength := h.operands.length h.ended.advance
  have hbound := p.advance.left_le_ahead
  have hstop : r.peek.kind.startsArgument = false := by
    rw [Parser.peek, TokenSequence.peek_kind (h.operands.ended h.ended.advance), h.stop]
    rfl
  rw [application, currentScope_bind, advance_bind, bind_of_run (resolve_found (p := p.advance) hx),
    bind_of_run (signatureOf_function hf _ _), tokensAhead_bind,
    bind_of_run (h.operands.chain hstop (by omega))]

theorem ahead : u.peek = p.peek ∧ u.advance.peek.kind = .openParen := by
  obtain ⟨opening, args, closing, hopening, -, -, hrest⟩ := h.call
  obtain ⟨-, hafter⟩ := peek_of_rest h.ended' hrest
  constructor
  · rw [Parser.peek, TokenSequence.peek_eq, hrest]
    rfl
  · exact (peek_of_rest (p := u.advance) h.ended'.advance hafter).1.trans hopening

theorem findToken? : u.advance.arena.findToken? u.advance.scope p.peek =
    p.arena.findToken? p.scope p.peek := by
  rw [h.same]
  rfl

theorem name_run (hx : p.arena.findToken? p.scope p.peek = some x)
    (hf : x.signature? = some f) :
    ∃ s : TokenSequence, s.rest = more ∧ s.Ended ∧ name operand u =
      (do
        let cell ← typing (Typing.call p.peek f (ts.map Term.typed))
        pure (Term.call ⟨p.peek, x⟩ (ts.map (Term.alone · p.scope)) cell)) (r.reading s) := by
  obtain ⟨hpeek, hopen⟩ := h.ahead
  obtain ⟨opening, args, closing, hopening, hcommas, hclosing, hrest⟩ := h.call
  obtain ⟨-, hafter⟩ := peek_of_rest h.ended' hrest
  have hvalid : p.advance.scopes.Valid := Arena.lt_of_resolve hx
  have hadvance : u.advance = p.advance.reading u.advance.tokens := by
    rw [h.same]
    rfl
  obtain ⟨s, hargs, hs, hended⟩ := h.operands.parenthesised hcommas h.ended.advance hvalid
    (by rw [h.stop]; rfl) hopening hclosing h.ended'.advance hadvance hafter
  refine ⟨s, hs, hended, ?_⟩
  rw [name, advance_bind, hpeek, bind_of_run (resolve_found (h.findToken?.trans hx)),
    peekKind_bind, hopen]
  dsimp only
  rw [bind_of_run (signatureOf_function hf _ _), bind_of_run hargs, Term.map_alone_typed]
  rfl

theorem outcomes :
    (∃ x f p' s, p.arena.findToken? p.scope p.peek = some x ∧ x.signature? = some f ∧
      application operand p = .ok (.apply ⟨p.peek, x⟩ ts f.result p.scope) p' ∧
      name operand u =
        .ok (.call ⟨p.peek, x⟩ (ts.map (Term.alone · p.scope)) f.result) (p'.reading s) ∧
      p'.tokens = r.tokens ∧ s.rest = more ∧ s.Ended) ∨
    ∃ d p' u', CallError p p.peek ts d ∧ application operand p = .error d p' ∧
      name operand u = .error d u' := by
  obtain ⟨hpeek, hopen⟩ := h.ahead
  cases hx : p.arena.findToken? p.scope p.peek with
  | none =>
    refine .inr ⟨_, p.advance, u.advance, .undefined hx, ?_, ?_⟩
    · rw [application, currentScope_bind, advance_bind]
      exact bind_of_error (resolve_missing (p := p.advance) hx)
    · rw [name, advance_bind, hpeek]
      exact bind_of_error (resolve_missing (h.findToken?.trans hx))
  | some x =>
    cases hf : x.signature? with
    | none =>
      refine .inr ⟨_, p.advance, u.advance, .notAFunction hx hf, ?_, ?_⟩
      · rw [application, currentScope_bind, advance_bind,
          bind_of_run (resolve_found (p := p.advance) hx)]
        exact bind_of_error (signatureOf_variable hf _ _)
      · rw [name, advance_bind, hpeek, bind_of_run (resolve_found (h.findToken?.trans hx)),
          peekKind_bind, hopen]
        exact bind_of_error (signatureOf_variable hf _ _)
    | some f =>
      obtain ⟨s, hs, hended, hname⟩ := h.name_run hx hf
      rw [h.application_run hx hf, hname]
      rcases Typing.call_cases p.peek f (ts.map Term.typed) r.store with
        ⟨t, hcall⟩ | ⟨d, t, hcall, hcases⟩
      · refine .inl ⟨x, f, r.withStore t, s, rfl, hf, ?_, ?_, rfl, hs, hended⟩
        · exact bind_of_run (typing_ok.mpr ⟨t, hcall, rfl⟩)
        · exact bind_of_run (typing_ok.mpr ⟨t, hcall, rfl⟩)
      · refine .inr ⟨d, _, _, ?_, bind_of_error (typing_of_error hcall),
          bind_of_error (typing_of_error (p := r.reading s) hcall)⟩
        rw [List.length_map] at hcases
        rcases hcases with ⟨hlength, rfl⟩ | ⟨hlength, z, hz, expected, found, rfl⟩
        · exact .arity hx hf hlength
        · obtain ⟨arg, harg, rfl⟩ := List.mem_map.mp hz
          exact .argument hx hf hlength harg

theorem exp_outcomes :
    (∃ x f p' s, p.arena.findToken? p.scope p.peek = some x ∧ x.signature? = some f ∧
      exp operand p = .ok (.apply ⟨p.peek, x⟩ ts f.result p.scope) p' ∧
      exp operand u = .ok (.single p.peek (.call ⟨p.peek, x⟩ (ts.map (Term.alone · p.scope))
        f.result) p.scope) (p'.reading s) ∧
      p'.tokens = r.tokens ∧ s.rest = more) ∨
    ∃ d p' u', CallError p p.peek ts d ∧ exp operand p = .error d p' ∧
      exp operand u = .error d u' := by
  obtain ⟨hpeek, hopen⟩ := h.ahead
  have hstart : p.tokens.peekNext.kind.startsArgument = true := by
    obtain ⟨opening, args, closing, -, hcommas, -, -⟩ := h.call
    rw [TokenSequence.peekNext_eq_advance]
    cases h.operands with
    | nil => cases hcommas
    | cons hstart _ _ _ => exact TokenKind.startsArgument_iff.mpr hstart
  have hchain : exp operand p = application operand p := by
    rw [exp, chainOr, peek_bind, peekNext_bind, if_pos ⟨h.head, hstart⟩]
  have hnochain :
      ¬ (u.peek.kind = .identifier ∧ u.tokens.peekNext.kind.startsArgument = true) := by
    rintro ⟨-, hargument⟩
    rw [TokenSequence.peekNext_eq_advance] at hargument
    change u.advance.peek.kind.startsArgument = true at hargument
    rw [hopen] at hargument
    cases hargument
  have hstep : operandStep operand u = name operand u := by
    rw [operandStep, peekKind_bind, hpeek, h.head]
  rw [hchain]
  rcases h.outcomes with ⟨x, f, p', s, hx, hf, happlication, hname, htokens, hs, hended⟩ |
    ⟨d, p', u', hd, happlication, hname⟩
  · obtain ⟨s', hoperand, hs', hended'⟩ := operand_of_step h.ended' (hstep.trans hname)
    have hrest : s'.rest = more := hs'.trans hs
    have hnext : ((p'.reading s).reading s').peek.kind = .doubleSemicolon :=
      (TokenSequence.peek_kind hended').trans (by rw [hrest]; exact h.stop')
    have hends : ExpEnds ((p'.reading s).reading s').peek.kind := by
      rw [hnext]
      exact ⟨rfl, by decide⟩
    have hcall := exp_of_operand hnochain hoperand hends
    have hscope : u.scope = p.scope := by rw [h.same]; rfl
    rw [hpeek, hscope] at hcall
    exact .inl ⟨x, f, p', s', hx, hf, happlication, hcall, htokens, hrest⟩
  · have hfirst : u.peek.kind ≠ .endOfInput := by
      rw [hpeek, h.head]
      decide
    obtain ⟨u'', hoperand⟩ := operand_of_failed_step h.ended' hfirst (hstep.trans hname)
    exact .inr ⟨d, p', u'', hd, happlication, exp_of_failed_operand hnochain hoperand⟩

end BothForms

end Parse

/-- A name is applied to operands that follow it, and to the same operands in parentheses. From the
same state, at whatever other locations, both are read as the same application or fail alike. -/
theorem chain_same_as_call {f : Location → Location} {p q r : Parser} {s : TokenSequence}
    {head opening closing semicolon semicolon' : Token} {os : List (List Token)}
    {args more more' : List Token} {ts : List Term} (hp : p.tokens.Ended)
    (hchain : p.tokens.rest = head :: (os.flatten ++ semicolon :: more))
    (hs : s.Ended)
    (hcall : s.rest = head :: opening :: (args ++ closing :: semicolon' :: more'))
    (hargs : Parse.Commas os args) (hhead : head.kind = .identifier)
    (hopening : opening.kind = .openParen) (hclosing : closing.kind = .closeParen)
    (hsemicolon : semicolon.kind = .doubleSemicolon)
    (hsemicolon' : semicolon'.kind = .doubleSemicolon)
    (hoperands : Parse.Operands p.advance os ts r) (hq : (p.reading s).Relaid f q) :
    Parse.SameApplication f p head ts (semicolon :: more) (semicolon' :: more')
      (Parse.exp Parse.operand p) (Parse.exp Parse.operand q) := by
  obtain ⟨hkind, hafter⟩ := Parse.peek_of_rest hp hchain
  have hpeek : p.peek = head := by
    rw [Parser.peek, TokenSequence.peek_eq, hchain]
    rfl
  have hrest : r.tokens.rest = semicolon :: more := by
    rw [hoperands.rest] at hafter
    exact List.append_cancel_left hafter
  have hforms : Parse.BothForms p (p.reading s) os ts r (semicolon' :: more') :=
    { ended := hp
      head := hkind.trans hhead
      operands := hoperands
      stop := by rw [hrest]; exact hsemicolon
      ended' := hs
      same := rfl
      call := ⟨opening, args, closing, hopening, hargs, hclosing, by rw [hpeek]; exact hcall⟩
      stop' := hsemicolon' }
  have hrelaid := Parse.Agree.exp (Parse.Agree.operand (f := f)) hq (Nat.le_refl _)
  rcases hforms.exp_outcomes with ⟨x, signature, p', s', hx, hf, hrun, hrun', htokens, hs'⟩ |
    ⟨d, p', u', hd, hrun, hrun'⟩
  · rw [hpeek] at hx hrun hrun'
    rw [hrun'] at hrelaid
    rw [hrun]
    generalize Parse.exp Parse.operand q = result at hrelaid
    cases hrelaid with
    | ok he hq' _ =>
      rw [he]
      exact .ok hx hf (by rw [htokens, hrest]) hs' hq'
  · rw [hpeek] at hd
    rw [hrun'] at hrelaid
    rw [hrun]
    generalize Parse.exp Parse.operand q = result at hrelaid
    cases hrelaid with
    | error he =>
      rw [he]
      exact .error hd

/-- The second operand is a call itself, and the call is written one line below the chain. -/
theorem chain_same_as_call_nested :
    ∃ (p q r : Parser) (os : List (List Token)) (ts : List Term) (head semicolon : Token),
      p.tokens.rest.map Token.value = ["f", "1", "f", "(", "2", ",", "3", ")", ";;"] ∧
      q.tokens.rest.map Token.value =
        ["f", "(", "1", ",", "f", "(", "2", ",", "3", ")", ")", ";;"] ∧
      Parse.Operands p.advance os ts r ∧ (∃ e p', Parse.exp Parse.operand p = .ok e p') ∧
      Parse.SameApplication (fun l => { l with line := l.line + 1 }) p head ts [semicolon]
        [semicolon] (Parse.exp Parse.operand p) (Parse.exp Parse.operand q) := by
  let token : TokenKind → String → Nat → Token := fun kind text column =>
    ⟨kind, text, ⟨"shell", 1, column, 0⟩⟩
  let below : Location → Location := fun l => { l with line := l.line + 1 }
  let head := token .identifier "f" 1
  let opening := token .openParen "(" 2
  let first := [token .int "1" 3]
  let comma := token .comma "," 4
  let second := [token .identifier "f" 6, token .openParen "(" 7, token .int "2" 8,
    token .comma "," 9, token .int "3" 10, token .closeParen ")" 11]
  let closing := token .closeParen ")" 12
  let semicolon := token .doubleSemicolon ";;" 14
  let call := head :: opening :: (first ++ comma :: second ++ closing :: [semicolon])
  let symbol : Symbol := ⟨0, "f", 3, head, .function ⟨[0, 1], 2⟩⟩
  let p : Parser := ⟨.ofList (head :: ([first, second].flatten ++ [semicolon])) "shell",
    (Arena.empty.create .file none).2.insert 0 symbol, 0,
    ⟨#[.unknown, .unknown, .unknown, .known .function]⟩, 1⟩
  let q : Parser := ⟨.ofList (call.map (Token.relocate below)) "shell", p.arena.relocate below,
    0, p.store, 1⟩
  have hp : p.tokens.Ended := rfl
  have hs : (TokenSequence.ofList call "shell").Ended := rfl
  have hrelaid : (p.reading (.ofList call "shell")).Relaid below q :=
    ⟨⟨rfl, rfl, rfl⟩, rfl, rfl, rfl, rfl⟩
  have hexp : (match Parse.exp Parse.operand p with
      | .ok _ _ => true
      | .error _ _ => false) = true := by decide +kernel
  have hfirst : (match Parse.operand p.advance with
      | .ok _ q => q.tokens.rest == second ++ [semicolon] &&
        match Parse.operand q with
        | .ok _ r => r.tokens.rest == [semicolon]
        | .error _ _ => false
      | .error _ _ => false) = true := by decide +kernel
  split at hfirst
  next t q₁ hrun =>
    rw [Bool.and_eq_true, beq_iff_eq] at hfirst
    obtain ⟨hrest, hsecond⟩ := hfirst
    split at hsecond
    next t' r hrun' =>
      rw [beq_iff_eq] at hsecond
      have hoperands : Parse.Operands p.advance [first, second] [t, t'] r := by
        refine .cons (by decide +kernel) hrun ?_ (.cons ?_ hrun' ?_ .nil)
        · rw [hrest]
          rfl
        · rw [Parser.peek, TokenSequence.peek_eq, hrest]
          exact List.mem_cons_self
        · rw [hrest, hsecond]
      refine ⟨p, q, r, _, _, head, semicolon, rfl, rfl, hoperands, ?_, ?_⟩
      · split at hexp
        next e p' hrun => exact ⟨e, p', hrun⟩
        next => cases hexp
      · exact chain_same_as_call hp rfl hs rfl (.cons rfl .last) rfl rfl rfl rfl rfl hoperands
          hrelaid
    next => cases hsecond
  next => cases hfirst

end MiniMl
