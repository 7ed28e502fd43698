import MiniMl.Parser.Program

/-! # Successful runs of the productions

What a production has read and done when it succeeds, said once for each production. The bounds of
the loops disappear here: a run of a loop is a finite chain of runs of its body.
-/

namespace MiniMl

namespace Parser

def advance (p : Parser) : Parser := { p with tokens := p.tokens.advance }

def taken? (p : Parser) (kind : TokenKind) : Option Token :=
  if p.peek.kind = kind then some p.peek else none

def skip (p : Parser) (kind : TokenKind) : Parser := if p.peek.kind = kind then p.advance else p

@[simp] theorem skip_arena (p : Parser) (kind : TokenKind) : (p.skip kind).arena = p.arena := by
  unfold skip
  split
  · rfl
  · rfl

@[simp] theorem skip_scope (p : Parser) (kind : TokenKind) : (p.skip kind).scope = p.scope := by
  unfold skip
  split
  · rfl
  · rfl

@[simp] theorem skip_store (p : Parser) (kind : TokenKind) : (p.skip kind).store = p.store := by
  unfold skip
  split
  · rfl
  · rfl

@[simp] theorem skip_symbols (p : Parser) (kind : TokenKind) :
    (p.skip kind).symbols = p.symbols := by
  unfold skip
  split
  · rfl
  · rfl

def enter (p : Parser) (kind : ScopeKind) : Parser := (p.enterScope kind).2

def absorb (p : Parser) (source : ScopeId) : Parser :=
  { p with arena := p.arena.append source p.scope }

def defineIn (p : Parser) (scope : ScopeId) (x : Symbol) : Parser :=
  { p with arena := p.arena.insert scope x }

def defineTagIn (p : Parser) (scope : ScopeId) (x : Symbol) : Parser :=
  { p with arena := p.arena.insertTag scope x }

def define (p : Parser) (x : Symbol) : Parser := p.defineIn p.scope x

def defineTag (p : Parser) (x : Symbol) : Parser := p.defineTagIn p.scope x

def defineAll (p : Parser) (xs : List Symbol) : Parser := xs.foldl define p

def withStore (p : Parser) (s : Store) : Parser := { p with store := s }

def numbered (p : Parser) (n : Nat) : Parser := { p with symbols := p.symbols + n }

end Parser

/-! A run of a sequence of steps, told from its first step on. -/

theorem bind_ok {ε σ α β : Type} {x : EStateM ε σ α} {f : α → EStateM ε σ β} {p q : σ} {b : β} :
    (x >>= f) p = .ok b q ↔ ∃ a r, x p = .ok a r ∧ f a r = .ok b q := by
  change EStateM.bind x f p = _ ↔ _
  unfold EStateM.bind
  cases x p with
  | ok a r =>
    constructor
    · intro h
      exact ⟨a, r, rfl, h⟩
    · rintro ⟨_, _, ⟨⟩, h⟩
      exact h
  | error d r => simp

@[simp] theorem pure_ok {ε σ α : Type} {a b : α} {p q : σ} :
    (pure a : EStateM ε σ α) p = .ok b q ↔ a = b ∧ p = q := by
  change EStateM.Result.ok a p = _ ↔ _
  simp

@[simp] theorem throw_ok {ε σ α : Type} {d : ε} {p q : σ} {b : α} :
    ¬ (throw d : EStateM ε σ α) p = .ok b q := by
  intro h
  cases h

theorem ok_of_toOption {ε α : Type} {x : Except ε α} {a : α} (h : x.toOption = some a) :
    x = .ok a := by
  cases x with
  | error d => cases h
  | ok b =>
    cases h
    rfl

theorem bind_of_run {ε σ α β : Type} {x : EStateM ε σ α} {f : α → EStateM ε σ β} {p r : σ} {a : α}
    (h : x p = .ok a r) : (x >>= f) p = f a r := by
  change EStateM.bind x f p = _
  unfold EStateM.bind
  rw [h]

theorem bind_of_error {ε σ α β : Type} {x : EStateM ε σ α} {f : α → EStateM ε σ β} {p r : σ} {d : ε}
    (h : x p = .error d r) : (x >>= f) p = .error d r := by
  change EStateM.bind x f p = _
  unfold EStateM.bind
  rw [h]

theorem Signature.newParams_length {n : Nat} {cells : List Cell} {s t : Store}
    (h : newParams n s = .ok cells t) : cells.length = n := by
  induction n generalizing s cells with
  | zero =>
    obtain ⟨rfl, rfl⟩ := pure_ok.mp h
    rfl
  | succ n ih =>
    obtain ⟨first, s₁, h₁, h⟩ := bind_ok.mp h
    obtain ⟨others, s₂, h₂, h⟩ := bind_ok.mp h
    obtain ⟨rfl, rfl⟩ := pure_ok.mp h
    rw [List.length_cons, ih h₂]

theorem Signature.new_length {n : Nat} {f : Signature} {s t : Store}
    (h : new n s = .ok f t) : f.params.length = n := by
  obtain ⟨params, s₁, h₁, h⟩ := bind_ok.mp h
  obtain ⟨result, s₂, h₂, h⟩ := bind_ok.mp h
  obtain ⟨rfl, rfl⟩ := pure_ok.mp h
  exact newParams_length h₁

namespace Parse

variable {p q : Parser} {α β : Type} {b : β}

def outcome? (step : Parse α) (p : Parser) : Option (α × Parser) :=
  match step p with
  | .ok a q => some (a, q)
  | .error _ _ => none

theorem outcome?_eq_some {step : Parse α} {a : α} :
    step.outcome? p = some (a, q) ↔ step p = .ok a q := by
  unfold outcome?
  cases step p with
  | ok b r => simp
  | error d r => simp

@[simp] theorem peek_bind (f : Token → Parse β) (p : Parser) : (peek >>= f) p = f p.peek p := rfl

@[simp] theorem peekKind_bind (f : TokenKind → Parse β) (p : Parser) :
    (peekKind >>= f) p = f p.peek.kind p := rfl

@[simp] theorem peekNext_bind (f : Token → Parse β) (p : Parser) :
    (peekNext >>= f) p = f p.tokens.peekNext p := rfl

@[simp] theorem hasTokens_bind (f : Bool → Parse β) (p : Parser) :
    (hasTokens >>= f) p = f p.hasTokens p := rfl

@[simp] theorem tokensAhead_bind (f : Nat → Parse β) (p : Parser) :
    (tokensAhead >>= f) p = f p.tokens.ahead.length p := rfl

@[simp] theorem currentScope_bind (f : ScopeId → Parse β) (p : Parser) :
    (currentScope >>= f) p = f p.scope p := rfl

@[simp] theorem advance_bind (f : Token → Parse β) (p : Parser) :
    (advance >>= f) p = f p.peek p.advance := rfl

@[simp] theorem enterScope_bind (kind : ScopeKind) (f : ScopeId → Parse β) (p : Parser) :
    (enterScope kind >>= f) p = f p.arena.size (p.enter kind) := rfl

@[simp] theorem leaveScope_bind (f : Unit → Parse β) (p : Parser) :
    (leaveScope >>= f) p = f () p.leaveScope := rfl

@[simp] theorem appendToCurrent_bind (source : ScopeId) (f : Unit → Parse β) (p : Parser) :
    (appendToCurrent source >>= f) p = f () (p.absorb source) := rfl

@[simp] theorem define_bind (x : Symbol) (f : Unit → Parse β) (p : Parser) :
    (define x >>= f) p = f () (p.define x) := rfl

@[simp] theorem defineTag_bind (x : Symbol) (f : Unit → Parse β) (p : Parser) :
    (defineTag x >>= f) p = f () (p.defineTag x) := rfl

@[simp] theorem newVariable_bind (name : Token) (cell : Cell) (f : Symbol → Parse β) (p : Parser) :
    (newVariable name cell >>= f) p = f (.variableOf p.symbols name cell) (p.numbered 1) := rfl

theorem defineAll_run (xs : List Symbol) (p : Parser) :
    defineAll xs p = .ok () (p.defineAll xs) := by
  induction xs generalizing p with
  | nil => rfl
  | cons x xs ih => exact ih (p.define x)

@[simp] theorem defineAll_bind (xs : List Symbol) (f : Unit → Parse β) (p : Parser) :
    (defineAll xs >>= f) p = f () (p.defineAll xs) := bind_of_run (defineAll_run xs p)

theorem test_eq (p : Parser) (kind : TokenKind) :
    p.tokens.test kind = decide (p.peek.kind = kind) := rfl

theorem tryConsume_run (kind : TokenKind) (p : Parser) :
    tryConsume kind p = .ok (p.taken? kind) (p.skip kind) := by
  change (EStateM.Result.ok (p.tokens.tryConsume kind).1
    { p with tokens := (p.tokens.tryConsume kind).2 } : EStateM.Result Diagnostic Parser _) = _
  by_cases h : p.peek.kind = kind
  · simp only [TokenSequence.tryConsume, test_eq, h, decide_true, if_true, Parser.taken?,
      Parser.skip]
    rfl
  · simp [TokenSequence.tryConsume, test_eq, h, Parser.taken?, Parser.skip]

@[simp] theorem tryConsume_bind (kind : TokenKind) (f : Option Token → Parse β) (p : Parser) :
    (tryConsume kind >>= f) p =
      if p.peek.kind = kind then f (some p.peek) p.advance else f none p := by
  rw [bind_of_run (tryConsume_run kind p), Parser.taken?, Parser.skip]
  split
  · rfl
  · rfl

theorem expect_run (kind : TokenKind) (p : Parser) :
    expect kind p =
      if p.peek.kind = kind then .ok p.peek p.advance else .error (p.tokens.mismatch kind) p := by
  by_cases h : p.peek.kind = kind
  · simp only [expect, TokenSequence.expect, test_eq, h, decide_true, if_true]
    rfl
  · simp [expect, TokenSequence.expect, test_eq, h]

@[simp] theorem expect_ok {kind : TokenKind} {t : Token} :
    expect kind p = .ok t q ↔ p.peek.kind = kind ∧ p.peek = t ∧ p.advance = q := by
  rw [expect_run]
  by_cases h : p.peek.kind = kind
  · simp [h]
  · simp [h]

@[simp] theorem expect_bind {kind : TokenKind} {f : Token → Parse β} :
    (expect kind >>= f) p = .ok b q ↔ p.peek.kind = kind ∧ f p.peek p.advance = .ok b q := by
  simp [bind_ok, and_assoc]

@[simp] theorem unexpected_ok {a : α} : ¬ unexpected p = .ok a q := by
  simp [unexpected]

theorem resolve_found {name : Token} {x : Symbol} (h : p.arena.findToken? p.scope name = some x) :
    resolve name p = .ok x p := by
  rw [resolve, bind_of_run (show (get : Parse Parser) p = .ok p p from rfl), h]
  rfl

theorem resolve_missing {name : Token} (h : p.arena.findToken? p.scope name = none) :
    resolve name p = .error ⟨.undefinedVar name.value, name.location⟩ p := by
  rw [resolve, bind_of_run (show (get : Parse Parser) p = .ok p p from rfl), h]
  rfl

@[simp] theorem resolve_bind {name : Token} {f : Symbol → Parse β} :
    (resolve name >>= f) p = .ok b q ↔
      ∃ x, p.arena.findToken? p.scope name = some x ∧ f x p = .ok b q := by
  rw [bind_ok]
  cases h : p.arena.findToken? p.scope name with
  | none => simp [resolve_missing h]
  | some y => simp [resolve_found h, and_assoc]

@[simp] theorem typing_ok {rule : Typing α} {a : α} :
    typing rule p = .ok a q ↔ ∃ s, rule p.store = .ok a s ∧ p.withStore s = q := by
  cases h : rule p.store with
  | ok b s => simp [typing, h, Parser.withStore, and_assoc]
  | error d s => simp [typing, h]

theorem typing_of_error {rule : Typing α} {d : Diagnostic} {s : Store}
    (h : rule p.store = .error d s) : typing rule p = .error d (p.withStore s) := by
  unfold typing
  rw [h]
  rfl

@[simp] theorem typing_bind {rule : Typing α} {f : α → Parse β} :
    (typing rule >>= f) p = .ok b q ↔
      ∃ a s, rule p.store = .ok a s ∧ f a (p.withStore s) = .ok b q := by
  simp only [bind_ok, typing_ok]
  constructor
  · rintro ⟨a, _, ⟨s, hs, rfl⟩, h⟩
    exact ⟨a, s, hs, h⟩
  · rintro ⟨a, s, hs, h⟩
    exact ⟨a, _, ⟨s, hs, rfl⟩, h⟩

@[simp] theorem signatureOf_bind {use : Token} {x : Symbol} {f : Signature → Parse β} :
    (signatureOf use x >>= f) p = .ok b q ↔
      ∃ g, x.signature? = some g ∧ f g p = .ok b q := by
  rw [bind_ok]
  cases h : x.signature? with
  | none => simp [signatureOf, h]
  | some g => simp [signatureOf, h, and_assoc]

@[simp] theorem newFunction_bind {name : Token} {g : Signature} {f : Symbol → Parse β} :
    (newFunction name g >>= f) p = .ok b q ↔
      ∃ x s, Symbol.functionOf p.symbols name g p.store = .ok x s ∧
        f x ((p.numbered 1).withStore s) = .ok b q := by
  have hr : newFunction name g p = typing (Symbol.functionOf p.symbols name g) (p.numbered 1) := rfl
  simp only [bind_ok, hr, typing_ok]
  constructor
  · rintro ⟨x, _, ⟨s, hs, rfl⟩, h⟩
    exact ⟨x, s, hs, h⟩
  · rintro ⟨x, s, hs, h⟩
    exact ⟨x, _, ⟨s, hs, rfl⟩, h⟩

theorem functionOf_ok {n : Nat} {token : Token} {g : Signature} {x : Symbol} {s t : Store} :
    Symbol.functionOf n token g s = .ok x t ↔
      ∃ c, Typing.new (.known .function) s = .ok c t ∧
        x = ⟨n, token.value, c, token, .function g⟩ := by
  rw [Symbol.functionOf, bind_ok]
  constructor
  · rintro ⟨c, r, hc, h⟩
    obtain ⟨rfl, rfl⟩ := pure_ok.mp h
    exact ⟨c, hc, rfl⟩
  · rintro ⟨c, hc, rfl⟩
    exact ⟨c, t, hc, rfl⟩

/-- The symbols of parameters, numbered from `n` on. -/
def parameters : (n : Nat) → List Token → List Cell → List Symbol
  | n, token :: tokens, cell :: cells =>
    .variableOf n token cell :: parameters (n + 1) tokens cells
  | _, _, _ => []

theorem newVariables_run (tokens : List Token) (cells : List Cell) (p : Parser) :
    newVariables tokens cells p =
      .ok (parameters p.symbols tokens cells)
        (p.numbered (parameters p.symbols tokens cells).length) := by
  induction tokens generalizing cells p with
  | nil => rfl
  | cons token tokens ih =>
    cases cells with
    | nil => rfl
    | cons cell cells =>
      change (newVariables tokens cells >>= fun xs =>
        pure (Symbol.variableOf p.symbols token cell :: xs)) (p.numbered 1) = _
      rw [bind_of_run (ih cells (p.numbered 1))]
      simp [parameters, Parser.numbered, pure, EStateM.pure, Nat.add_assoc, Nat.add_comm]

@[simp] theorem newVariables_bind (tokens : List Token) (cells : List Cell)
    (f : List Symbol → Parse β) (p : Parser) :
    (newVariables tokens cells >>= f) p = f (parameters p.symbols tokens cells)
      (p.numbered (parameters p.symbols tokens cells).length) :=
  bind_of_run (newVariables_run tokens cells p)

end Parse

end MiniMl
