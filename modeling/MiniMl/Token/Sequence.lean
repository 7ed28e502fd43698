import MiniMl.Diagnostic
import MiniMl.Token.Basic

/-! # Token sequences

A list of tokens read through a cursor that steps over newlines. Past the last token it reads a
sentinel and counts how often, so that every read can be undone.
-/

namespace MiniMl

structure TokenSequence where
  /-- The tokens passed, last one first. -/
  behind : List Token
  ahead : List Token
  overrun : Nat
  sentinel : Token
deriving DecidableEq, Repr

structure Checkpoint where
  behind : List Token
  ahead : List Token
  overrun : Nat
deriving DecidableEq, Repr

namespace TokenSequence

/-- The sentinel stands at the last token that is no newline. -/
def ofList (tokens : List Token) (file : String) : TokenSequence :=
  let last := tokens.reverse.find? (!·.isNewline)
  ⟨[], tokens, 0, ⟨.endOfInput, "EOF", (last.map (·.location)).getD (.start file)⟩⟩

def toList (s : TokenSequence) : List Token := s.behind.reverse ++ s.ahead

def size (s : TokenSequence) : Nat := s.toList.length

def isEmpty (s : TokenSequence) : Bool := s.toList.isEmpty

def upcoming (s : TokenSequence) : List Token := s.ahead.dropWhile Token.isNewline

def peek (s : TokenSequence) : Token := s.upcoming.headD s.sentinel

def peekNext (s : TokenSequence) : Token :=
  (s.upcoming.tail.dropWhile Token.isNewline).headD s.sentinel

/-- The cursor behind the next token; at the end only the overrun grows. -/
def advance (s : TokenSequence) : TokenSequence :=
  match s.upcoming with
  | t :: rest =>
    { s with behind := t :: ((s.ahead.takeWhile Token.isNewline).reverse ++ s.behind), ahead := rest }
  | [] => { s with overrun := s.overrun + 1 }

def next (s : TokenSequence) : Token × TokenSequence := (s.peek, s.advance)

/-- Undoes one read; the newlines before the token come back with it. -/
def putBack (s : TokenSequence) : TokenSequence :=
  match s.overrun, s.behind with
  | n + 1, _ => { s with overrun := n }
  | 0, [] => s
  | 0, t :: rest =>
    { s with
      behind := rest.dropWhile Token.isNewline
      ahead := (rest.takeWhile Token.isNewline).reverse ++ t :: s.ahead }

def test (s : TokenSequence) (kind : TokenKind) : Bool := s.peek.kind == kind

def tryConsume (s : TokenSequence) (kind : TokenKind) : Option Token × TokenSequence :=
  if s.test kind then (some s.peek, s.advance) else (none, s)

def mismatch (s : TokenSequence) (kind : TokenKind) : Diagnostic :=
  ⟨if s.test .endOfInput then .prematureEnd else .unexpectedToken kind.text s.peek.display,
    s.peek.location⟩

def expect (s : TokenSequence) (kind : TokenKind) : Except Diagnostic (Token × TokenSequence) :=
  if s.test kind then .ok s.next else .error (s.mismatch kind)

def mark (s : TokenSequence) : Checkpoint := ⟨s.behind, s.ahead, s.overrun⟩

def resetTo (s : TokenSequence) (c : Checkpoint) : TokenSequence :=
  { s with behind := c.behind, ahead := c.ahead, overrun := c.overrun }

def atEnd (s : TokenSequence) : Bool := s.test .endOfInput

def isBeginOfLine (s : TokenSequence) (index : Nat) : Bool :=
  index < s.size &&
    match index with
    | 0 => true
    | before + 1 => s.toList[before]?.any Token.isNewline

def line (s : TokenSequence) (number : Nat) : List Token :=
  s.toList.filter fun t => t.location.line == number && !t.isNewline

def back? (s : TokenSequence) : Option Token := s.toList.reverse.find? (!·.isNewline)

end TokenSequence

end MiniMl
