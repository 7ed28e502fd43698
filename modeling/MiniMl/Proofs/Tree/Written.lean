import Mathlib.Computability.Language
import Mathlib.Data.List.SplitBy
import MiniMl.Parser.Operators
import MiniMl.Tree.Basic

/-! # Trees written as tokens

The token lists that a tree stands for. What a node stores is written as it is; of the keywords and
separators that belong to its production only the kinds are fixed.
-/

namespace MiniMl

namespace Written

def ofKind (kind : TokenKind) : Language Token := {ts | ∃ t, ts = [t] ∧ t.kind = kind}

/-- The token itself, which is of an admitted kind. -/
def stored (token : Token) (admitted : TokenKind → Prop) : Language Token :=
  {ts | ts = [token] ∧ admitted token.kind}

def startingWith (token : Token) (l : Language Token) : Language Token :=
  {ts | ts ∈ l ∧ ts.head? = some token}

def joined (separator : TokenKind) : List (Language Token) → Language Token
  | [] => 1
  | [l] => l
  | l :: ls => l * ofKind separator * joined separator ls

def parenthesised : List (Language Token) → Language Token
  | [] => ofKind .unit
  | ls => ofKind .openParen * joined .comma ls * ofKind .closeParen

def literal (token : Token) (value : Constant) : Language Token :=
  {ts | ts = [token] ∧ Constant.ofToken token = .ok value ∧
    (token.kind = .int ∨ token.kind = .float ∨ token.kind = .bool ∨ token.kind = .string ∨
      token.kind = .unit)}

end Written

def Binding.recursion? : Binding → Option Bool
  | .value _ _ => none
  | .function _ _ _ isRec _ => some isRec

/-- Bindings of variables alone may stand behind `rec` or not. -/
def Written.recWord (bs : List Binding) : Language Token :=
  if bs.any (·.recursion? == some true) then ofKind .recWord
  else if bs.all (·.recursion?.isNone) then 1 + ofKind .recWord
  else 1

open Written

mutual

def Term.written : Term → Language Token
  | .binary op lhs rhs _ => lhs.written * stored op (·.power?.isSome = true) * rhs.written
  | .unary op operand _ => stored op (fun k => k = .plus ∨ k = .dash) * operand.written
  | .pair token first second _ =>
    stored token (· = .openParen) * first.written * ofKind .comma * second.written *
      ofKind .closeParen
  | .projection token side first second =>
    stored token (· = match side with
      | .first => .fstWord
      | .second => .sndWord) *
      ofKind .openParen * first.written * ofKind .comma * second.written * ofKind .closeParen
  | .sequence token first second => first.written * stored token (· = .semicolon) * second.written
  | .var use => stored use.token (· = .identifier)
  | .constant token value _ => literal token value
  | .conditional token condition first second _ =>
    stored token (· = .ifWord) * condition.written * ofKind .thenWord * first.written *
      Exp.elseWritten second
  | .loop token condition body _ =>
    stored token (· = .whileWord) * condition.written * ofKind .doWord * body.written *
      ofKind .doneWord
  | .letIn token bindings body _ =>
    stored token (· = .letWord) * recWord bindings *
      joined .andWord (Binding.listWritten bindings) * ofKind .inWord * body.written
  | .call callee args _ =>
    stored callee.token (· = .identifier) * Written.parenthesised (Exp.listWritten args)
  | .paren token inner => stored token (· = .openParen) * inner.written * ofKind .closeParen

def Exp.written : Exp → Language Token
  | .apply head args _ _ =>
    stored head.token (· = .identifier) * (Term.listWritten args).prod
  | .single root item _ => startingWith root item.written

/-- The name of a function is followed by those of its parameters, in parentheses. -/
def Binding.written : Binding → Language Token
  | .value symbol body =>
    stored symbol.token (· = .identifier) * ofKind .assignment * body.written
  | .function symbol params body _ _ =>
    stored symbol.token (· = .identifier) *
      Written.parenthesised (params.map fun x => stored x.token (· = .identifier)) *
      ofKind .assignment * body.written

def Exp.elseWritten : Option Exp → Language Token
  | none => 1
  | some e => ofKind .elseWord * e.written

def Term.listWritten : List Term → List (Language Token)
  | [] => []
  | t :: ts => t.written :: Term.listWritten ts

def Exp.listWritten : List Exp → List (Language Token)
  | [] => []
  | e :: es => e.written :: Exp.listWritten es

def Binding.listWritten : List Binding → List (Language Token)
  | [] => []
  | b :: bs => b.written :: Binding.listWritten bs

end

/-- The statements that one double semicolon ends: an expression, or all definitions of a let. -/
inductive StmtsWritten : List Stmt → List Token → Prop where
  | var {use block ts} : ts ∈ stored use.token (· = .identifier) * ofKind .doubleSemicolon →
      StmtsWritten [⟨.var use, use.token, block⟩] ts
  | exp {e block ts} : ts ∈ e.written * ofKind .doubleSemicolon →
      StmtsWritten [⟨.exp e, e.root, block⟩] ts
  | define {token bs block ts} : bs ≠ [] →
      ts ∈ stored token (· = .letWord) * recWord bs *
        joined .andWord (Binding.listWritten bs) * ofKind .doubleSemicolon →
      StmtsWritten (bs.map fun b => ⟨.define b, token, block⟩) ts

/-- Between the groups and around them, double semicolons may stand alone. -/
inductive GroupsWritten : List (List Stmt) → List Token → Prop where
  | nil : GroupsWritten [] []
  | stray {gs t ts} : t.kind = .doubleSemicolon → GroupsWritten gs ts → GroupsWritten gs (t :: ts)
  | group {g gs ts us} : StmtsWritten g ts → GroupsWritten gs us →
      GroupsWritten (g :: gs) (ts ++ us)

/-- Statements that follow one another and share their scope belong together. -/
def Program.groups (p : Program) : List (List Stmt) :=
  p.stmts.splitBy fun a b => a.scope == b.scope

theorem Exp.listWritten_eq (es : List Exp) : Exp.listWritten es = es.map Exp.written := by
  induction es with
  | nil => rfl
  | cons e es ih => rw [Exp.listWritten, ih, List.map_cons]

theorem Binding.listWritten_eq (bs : List Binding) :
    Binding.listWritten bs = bs.map Binding.written := by
  induction bs with
  | nil => rfl
  | cons b bs ih => rw [Binding.listWritten, ih, List.map_cons]

section Head

variable {l m : Language Token} {ts : List Token} {token : Token}

/-- All words of the language start with the token. -/
def Written.Starts (l : Language Token) (token : Token) : Prop :=
  ∀ ts ∈ l, ts.head? = some token

theorem Written.starts_stored (token : Token) (admitted : TokenKind → Prop) :
    Starts (stored token admitted) token := by
  rintro ts ⟨rfl, _⟩
  rfl

theorem Written.Starts.mul (h : Starts l token) (m : Language Token) : Starts (l * m) token := by
  intro ts hts
  obtain ⟨as, ha, bs, _, rfl⟩ := Language.mem_mul.mp hts
  have ha := h as ha
  cases as with
  | nil => cases ha
  | cons a as => exact ha

theorem Term.written_starts : ∀ t : Term, Starts t.written t.token
  | .binary _ lhs _ _ => (lhs.written_starts.mul _).mul _
  | .unary op _ _ => (starts_stored op _).mul _
  | .pair token _ _ _ => ((((starts_stored token _).mul _).mul _).mul _).mul _
  | .projection token _ _ _ => (((((starts_stored token _).mul _).mul _).mul _).mul _).mul _
  | .sequence _ first _ => (first.written_starts.mul _).mul _
  | .var use => starts_stored use.token _
  | .constant _ _ _ => by
    rintro ts ⟨rfl, _⟩
    rfl
  | .conditional token _ _ _ _ => ((((starts_stored token _).mul _).mul _).mul _).mul _
  | .loop token _ _ _ => ((((starts_stored token _).mul _).mul _).mul _).mul _
  | .letIn token _ _ _ => ((((starts_stored token _).mul _).mul _).mul _).mul _
  | .call callee _ _ => (starts_stored callee.token _).mul _
  | .paren token _ => ((starts_stored token _).mul _).mul _

theorem Exp.written_starts : ∀ e : Exp, Starts e.written e.root
  | .apply head _ _ _ => (starts_stored head.token _).mul _
  | .single _ _ _ => fun _ hts => hts.2

end Head

end MiniMl
