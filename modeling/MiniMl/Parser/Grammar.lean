import MiniMl.Parser.Operators
import MiniMl.Parser.State
import MiniMl.Tree.Basic

/-! # The grammar

One function for each production. Expressions nest only inside operands, so the productions are
written over a given reader of operands, and `operandWithin` ties the knot with a bound on the
depth. An operand takes at least one token, so the number of tokens ahead is bound enough, and no
result depends on a larger one.
-/

namespace MiniMl.Parse

def separated (separator : TokenKind) (item : Parse α) : (bound : Nat) → Parse (List α)
  | 0 => do
    let x ← item
    pure [x]
  | bound + 1 => do
    let x ← item
    match ← tryConsume separator with
    | none => pure [x]
    | some _ => do
      let xs ← separated separator item bound
      pure (x :: xs)

def separatedBy (separator : TokenKind) (item : Parse α) : Parse (List α) := do
  separated separator item (← tokensAhead)

/-- Either `()` or one or more items in parentheses with commas between them. -/
def parenthesised (item : Parse α) : Parse (List α) := do
  match ← tryConsume .unit with
  | some _ => pure []
  | none => do
    let _ ← expect .openParen
    let xs ← separatedBy .comma item
    let _ ← expect .closeParen
    pure xs

section Expressions

variable (operand : Parse Term)

/-- Takes in the binary operators of at least the level `floor` that follow a left operand. The
right operand of each takes in those that bind more strongly, so equal ones group to the left. -/
def climb : (bound : Nat) → (floor : Nat) → Term → Parse Term
  | 0, _, lhs => pure lhs
  | bound + 1, floor, lhs => do
    match (← peekKind).power? with
    | none => pure lhs
    | some power =>
      if power.level < floor then pure lhs
      else do
        let op ← advance
        let first ← operand
        let rhs ← climb bound (power.level + 1) first
        let cell ← typing (Typing.binary op lhs.typed rhs.typed)
        climb bound floor (.binary op lhs rhs cell)

def climbFrom (floor : Nat) (lhs : Term) : Parse Term := do
  climb operand (← tokensAhead) floor lhs

def operators : Parse Term := do
  let first ← operand
  climbFrom operand 0 first

/-- Operator expressions with semicolons between them, grouped to the right. -/
def sequenceWithin : (bound : Nat) → Parse Term
  | 0 => operators operand
  | bound + 1 => do
    let first ← operators operand
    match ← tryConsume .semicolon with
    | none => pure first
    | some token => do
      let second ← sequenceWithin bound
      pure (.sequence token first second)

def sequence : Parse Term := do sequenceWithin operand (← tokensAhead)

def chainArguments : (bound : Nat) → Parse (List Term)
  | 0 => pure []
  | bound + 1 => do
    if (← peekKind).startsArgument then
      let first ← operand
      let others ← chainArguments bound
      pure (first :: others)
    else pure []

def application : Parse Exp := do
  let scope ← currentScope
  let name ← advance
  let symbol ← resolve name
  let signature ← signatureOf name symbol
  let args ← chainArguments operand (← tokensAhead)
  let cell ← typing (Typing.call name signature (args.map Term.typed))
  pure (.apply ⟨name, symbol⟩ args cell scope)

/-- A chain, if a name and the start of an argument come next, and else what `other` reads. -/
def chainOr (other : Parse Term) : Parse Exp := do
  let root ← peek
  let next ← peekNext
  if root.kind = .identifier ∧ next.kind.startsArgument then application operand
  else do
    let scope ← currentScope
    let item ← other
    pure (.single root item scope)

def exp : Parse Exp := chainOr operand (sequence operand)

def constant : Parse Term := do
  let token ← advance
  match Constant.ofToken token with
  | .error problem => throw ⟨problem, token.location⟩
  | .ok value => do
    let cell ← typing (.new (.known value.kind))
    pure (.constant token value cell)

def signed : Parse Term := do
  let op ← advance
  let inner ← operand
  let cell ← typing (Typing.unary inner.typed)
  pure (.unary op inner cell)

def name : Parse Term := do
  let token ← advance
  let symbol ← resolve token
  match ← peekKind with
  | .openParen | .unit => do
    let signature ← signatureOf token symbol
    let args ← parenthesised (exp operand)
    let cell ← typing (Typing.call token signature (args.map Exp.typed))
    pure (.call ⟨token, symbol⟩ args cell)
  | _ => pure (.var ⟨token, symbol⟩)

def grouping : Parse Term := do
  let token ← advance
  let first ← exp operand
  match ← tryConsume .comma with
  | some _ => do
    let second ← exp operand
    let _ ← expect .closeParen
    let cell ← typing (.new (.known .pair))
    pure (.pair token first second cell)
  | none => do
    let _ ← expect .closeParen
    pure (.paren token first)

def projection : Parse Term := do
  let token ← advance
  let _ ← expect .openParen
  let first ← exp operand
  let _ ← expect .comma
  let second ← exp operand
  let _ ← expect .closeParen
  pure (.projection token (if token.kind = .fstWord then .first else .second) first second)

/-- A branch in a scope of its own. A semicolon ends it. -/
def branch : Parse (Exp × ScopeId) := do
  let scope ← enterScope .block
  let e ← chainOr operand (operators operand)
  leaveScope
  pure (e, scope)

def elseBranch : Parse (Option (Exp × ScopeId)) := do
  match ← tryConsume .elseWord with
  | some _ => some <$> branch operand
  | none => pure none

/-- The names bound in the branches stay bound behind them. -/
def conditional : Parse Term := do
  let token ← advance
  let condition ← exp operand
  let _ ← expect .thenWord
  let (first, firstScope) ← branch operand
  let second ← elseBranch operand
  let cell ← typing
    (Typing.conditional condition.typed first.typed (second.map fun b => b.1.typed))
  appendToCurrent firstScope
  match second with
  | none => pure (.conditional token condition first none cell)
  | some (second, secondScope) => do
    appendToCurrent secondScope
    pure (.conditional token condition first (some second) cell)

def loop : Parse Term := do
  let token ← advance
  let condition ← exp operand
  let _ ← expect .doWord
  let scope ← enterScope .block
  let body ← exp operand
  leaveScope
  let _ ← expect .doneWord
  let cell ← typing (Typing.loop condition.typed body.typed)
  appendToCurrent scope
  pure (.loop token condition body cell)

def newVariables : List Token → List Cell → Parse (List Symbol)
  | token :: tokens, cell :: cells => do
    let x ← newVariable token cell
    let xs ← newVariables tokens cells
    pure (x :: xs)
  | _, _ => pure []

def defineAll : List Symbol → Parse Unit
  | [] => pure ()
  | x :: xs => do
    define x
    defineAll xs

/-- The parameters and the body of a function. A recursive function is bound before its body is
read, any other one behind it. -/
def function (name : Token) (isRec : Bool) : Parse Binding := do
  let tokens ← parenthesised (expect .identifier)
  let signature ← typing (Signature.new tokens.length)
  let symbol ← newFunction name signature
  if isRec then define symbol
  let scope ← enterScope .function
  let params ← newVariables tokens signature.params
  defineAll params
  let _ ← expect .assignment
  let body ← exp operand
  leaveScope
  typing (Typing.functionBody signature body.typed)
  if !isRec then define symbol
  defineTag symbol
  pure (.function symbol params body isRec scope)

def binding (isRec : Bool) : Parse Binding := do
  let name ← expect .identifier
  match ← peekKind with
  | .openParen | .unit => function operand name isRec
  | _ => do
    let _ ← expect .assignment
    let body ← exp operand
    let symbol ← newVariable name body.cell
    define symbol
    pure (.value symbol body)

def bindings (isRec : Bool) : Parse (List Binding) :=
  separatedBy .andWord (binding operand isRec)

def finishLet (token : Token) (bindings : List Binding) (scope : ScopeId) : Parse Term := do
  let _ ← expect .inWord
  let body ← exp operand
  leaveScope
  appendToCurrent scope
  pure (.letIn token bindings body scope)

def letIn : Parse Term := do
  let token ← advance
  let isRec := (← tryConsume .recWord).isSome
  let scope ← enterScope .block
  let bindings ← bindings operand isRec
  finishLet operand token bindings scope

def operandStep : Parse Term := do
  match ← peekKind with
  | .identifier => name operand
  | .int | .float | .bool | .string | .unit => constant
  | .plus | .dash => signed operand
  | .openParen => grouping operand
  | .fstWord | .sndWord => projection operand
  | .ifWord => conditional operand
  | .whileWord => loop operand
  | .letWord => letIn operand
  | _ => unexpected

end Expressions

/-- Operands nested at most `bound` deep. -/
def operandWithin : (bound : Nat) → Parse Term
  | 0 => unexpected
  | bound + 1 => operandStep (operandWithin bound)

def operand : Parse Term := do operandWithin (← tokensAhead)

/-! Statements. -/

def defineAtTop (b : Binding) : Parse Unit :=
  match b with
  | .value symbol _ => defineIn Parser.fileScope symbol
  | .function symbol _ _ _ _ => do
    defineIn Parser.fileScope symbol
    defineTagIn Parser.fileScope symbol

def defineAllAtTop : List Binding → Parse Unit
  | [] => pure ()
  | b :: bs => do
    defineAtTop b
    defineAllAtTop bs

/-- Bindings that end there are definitions, a statement each; with `in` behind them they begin an
expression. -/
def letStmt (token : Token) (block : ScopeId) : Parse (List Stmt) := do
  let _ ← advance
  let isRec := (← tryConsume .recWord).isSome
  let scope ← enterScope .block
  let bindings ← bindings operand isRec
  if (← peekKind) = .inWord then do
    let item ← finishLet operand token bindings scope
    let _ ← expect .doubleSemicolon
    pure [⟨.exp (.single token item block), token, block⟩]
  else do
    leaveScope
    let _ ← expect .doubleSemicolon
    defineAllAtTop bindings
    pure (bindings.map fun b => ⟨.define b, token, block⟩)

def expStmt (token : Token) (block : ScopeId) : Parse (List Stmt) := do
  let e ← exp operand
  let _ ← expect .doubleSemicolon
  match e.var? with
  | some use => pure [⟨.var use, token, block⟩]
  | none => pure [⟨.exp e, token, block⟩]

def stmt : Parse (List Stmt) := do
  let token ← peek
  let block ← enterScope .block
  thenLeaveScope (if token.kind = .letWord then letStmt token block else expStmt token block)

/-- Statements up to the end; double semicolons may stand alone. -/
def stmts : (bound : Nat) → Parse (List Stmt)
  | 0 => pure []
  | bound + 1 => do
    if ← hasTokens then
      match ← tryConsume .doubleSemicolon with
      | some _ => stmts bound
      | none => do
        let first ← stmt
        let others ← stmts bound
        pure (first ++ others)
    else pure []

end MiniMl.Parse
