import MiniMl.Scope.Arena
import MiniMl.Token.Sequence
import MiniMl.Typing.Rules

/-! # The state of the parser

Names are resolved and types checked while the tokens are read, so the state is the token cursor,
the scopes, the type cells, and the scope that names are bound in. It is kept when parsing fails.
-/

namespace MiniMl

structure Parser where
  tokens : TokenSequence
  arena : Arena
  scope : ScopeId
  store : Store
  symbols : Nat
deriving DecidableEq, Repr

namespace Parser

def fileScope : ScopeId := 0

def ofTokens (tokens : TokenSequence) : Parser :=
  ⟨tokens, (Arena.empty.create .file none).2, fileScope, .empty, 0⟩

def peek (p : Parser) : Token := p.tokens.peek

def hasTokens (p : Parser) : Bool := !p.tokens.atEnd

def enterScope (p : Parser) (kind : ScopeKind) : ScopeId × Parser :=
  let (id, arena) := p.arena.create kind (some p.scope)
  (id, { p with arena, scope := id })

def leaveScope (p : Parser) : Parser := { p with scope := (p.arena.parent? p.scope).getD p.scope }

def mark (p : Parser) : Checkpoint := p.tokens.mark

def resetTo (p : Parser) (c : Checkpoint) : Parser := { p with tokens := p.tokens.resetTo c }

end Parser

abbrev Parse := EStateM Diagnostic Parser

namespace Parse

def peek : Parse Token := Parser.peek <$> get

def peekKind : Parse TokenKind := (·.peek.kind) <$> get

def peekNext : Parse Token := (·.tokens.peekNext) <$> get

def hasTokens : Parse Bool := Parser.hasTokens <$> get

/-- How many tokens are ahead, newlines included: enough steps for any loop that reads one token
or more each time. -/
def tokensAhead : Parse Nat := (·.tokens.ahead.length) <$> get

def currentScope : Parse ScopeId := (·.scope) <$> get

def advance : Parse Token :=
  modifyGet fun p => (p.tokens.peek, { p with tokens := p.tokens.advance })

def tryConsume (kind : TokenKind) : Parse (Option Token) :=
  modifyGet fun p =>
    let (token, tokens) := p.tokens.tryConsume kind
    (token, { p with tokens })

def expect (kind : TokenKind) : Parse Token := fun p =>
  match p.tokens.expect kind with
  | .ok (token, tokens) => .ok token { p with tokens }
  | .error d => .error d p

def unexpected : Parse α := do
  let token ← peek
  throw ⟨if token.kind = .endOfInput then .prematureEnd else .unexpectedExpression token.display,
    token.location⟩

def enterScope (kind : ScopeKind) : Parse ScopeId := modifyGet (·.enterScope kind)

def leaveScope : Parse Unit := modify Parser.leaveScope

/-- Runs a step and leaves the current scope behind it, also when it fails. -/
def thenLeaveScope (step : Parse α) : Parse α := fun p =>
  match step p with
  | .ok a p => .ok a p.leaveScope
  | .error d p => .error d p.leaveScope

/-- Copies the bindings of a finished scope into the current one, which keeps those it has. -/
def appendToCurrent (source : ScopeId) : Parse Unit :=
  modify fun p => { p with arena := p.arena.append source p.scope }

def defineIn (scope : ScopeId) (symbol : Symbol) : Parse Unit :=
  modify fun p => { p with arena := p.arena.insert scope symbol }

def defineTagIn (scope : ScopeId) (symbol : Symbol) : Parse Unit :=
  modify fun p => { p with arena := p.arena.insertTag scope symbol }

def define (symbol : Symbol) : Parse Unit := do defineIn (← currentScope) symbol

def defineTag (symbol : Symbol) : Parse Unit := do defineTagIn (← currentScope) symbol

def resolve (name : Token) : Parse Symbol := do
  let p ← get
  match p.arena.findToken? p.scope name with
  | some symbol => pure symbol
  | none => throw ⟨.undefinedVar name.value, name.location⟩

def typing (rule : Typing α) : Parse α := fun p =>
  match rule p.store with
  | .ok a store => .ok a { p with store }
  | .error d store => .error d { p with store }

def freshSymbol : Parse Nat := modifyGet fun p => (p.symbols, { p with symbols := p.symbols + 1 })

def newVariable (name : Token) (cell : Cell) : Parse Symbol := do
  pure (.variableOf (← freshSymbol) name cell)

def newFunction (name : Token) (signature : Signature) : Parse Symbol := do
  let id ← freshSymbol
  typing (Symbol.functionOf id name signature)

def signatureOf (use : Token) (symbol : Symbol) : Parse Signature :=
  match symbol.signature? with
  | some signature => pure signature
  | none => throw (.notAFunction use)

end Parse

end MiniMl
