import MiniMl.Source.Cursor
import MiniMl.Token.Sequence

/-! # Splitting a source into tokens

Which lexeme comes next is decided by the characters as they stand; while a lexeme is read, line
continuations are passed without a trace. Newlines are tokens; blanks and comments are not.
-/

namespace MiniMl

namespace Lexer

def isBlank (c : Char) : Bool := c == ' ' || c == '\t' || c == '\r' || c == '\x0c'

def isWordStart (c : Char) : Bool := c.isAlpha || c == '_'

def isWordPart (c : Char) : Bool := c.isAlphanum || c == '_'

def isNumberPart (c : Char) : Bool := c.isDigit || c == '_' || c == '.'

def takeRun (accept : Char → Bool) : List Char → Position → List Char × Cursor
  | '\\' :: '\n' :: rest, p => takeRun accept rest ((p.after '\\').after '\n')
  | c :: rest, p =>
    if accept c then
      let (run, stop) := takeRun accept rest (p.after c)
      (c :: run, stop)
    else ([], ⟨c :: rest, p⟩)
  | [], p => ([], ⟨[], p⟩)

def maxStringLength : Nat := 128

/-- The text of a string literal up to its closing quote, at most `room` characters. `last` is the
position behind the last character read, `p` that of the text. -/
def stringBody (opening : Position) :
    (room : Nat) → (last : Position) → List Char → Position →
      Except (Problem × Position) (List Char × Cursor)
  | room, last, '\\' :: '\n' :: rest, p =>
    stringBody opening room last rest ((p.after '\\').after '\n')
  | _, _, '"' :: rest, p => .ok ([], ⟨rest, p.after '"'⟩)
  | 0, last, _ :: _, _ => .error (.stringTooLong maxStringLength, last)
  | room + 1, _, c :: rest, p =>
    match stringBody opening room (p.after c) rest (p.after c) with
    | .ok (body, stop) => .ok (c :: body, stop)
    | .error e => .error e
  | _, _, [], _ => .error (.unterminatedString, opening)

/-- The cursor behind the first `*)`. `starred` tells whether the character before was a star. -/
def commentEnd? : (starred : Bool) → List Char → Position → Option Cursor
  | starred, '\\' :: '\n' :: rest, p => commentEnd? starred rest ((p.after '\\').after '\n')
  | true, ')' :: rest, p => some ⟨rest, p.after ')'⟩
  | _, c :: rest, p => commentEnd? (c == '*') rest (p.after c)
  | _, [], _ => none

/-- The kind of the longest fixed lexeme that the text starts with. -/
def punctuation? : List Char → Option TokenKind
  | '(' :: ')' :: _ => some .unit
  | '(' :: _ => some .openParen
  | ')' :: _ => some .closeParen
  | ';' :: ';' :: _ => some .doubleSemicolon
  | ';' :: _ => some .semicolon
  | ',' :: _ => some .comma
  | '=' :: '=' :: _ => some .equals
  | '!' :: '=' :: _ => some .notEquals
  | '=' :: _ => some .assignment
  | '<' :: '=' :: _ => some .lessEquals
  | '<' :: _ => some .less
  | '>' :: '=' :: _ => some .greaterEquals
  | '>' :: _ => some .greater
  | '&' :: '&' :: _ => some .logicalAnd
  | '|' :: '|' :: _ => some .logicalOr
  | '+' :: _ => some .plus
  | '-' :: _ => some .dash
  | '*' :: _ => some .star
  | '/' :: _ => some .slash
  | _ => none

/-- The cursor behind the next `n` characters as they stand. -/
def pass (n : Nat) (c : Cursor) : Cursor :=
  ⟨c.rest.drop n, (c.rest.take n).foldl Position.after c.position⟩

def wordKind (word : String) : TokenKind := (TokenKind.reserved? word).getD .identifier

def numberKind (digits : List Char) : TokenKind := if digits.contains '.' then .float else .int

/-- Reads one lexeme, a run of blanks or a comment at a cursor that is not at a continuation. -/
def lexeme (file : String) (start : Cursor) : Except Diagnostic (Option Token × Cursor) :=
  let location := start.position.location file
  match start.rest with
  | [] => .ok (none, start)
  | '\n' :: rest => .ok (some ⟨.newline, "\n", location⟩, ⟨rest, start.position.after '\n'⟩)
  | '"' :: rest =>
    let p := start.position.after '"'
    match stringBody start.position maxStringLength p rest p with
    | .ok (body, stop) =>
      .ok (some ⟨.string, "\"" ++ String.ofList body ++ "\"", location⟩, stop)
    | .error (problem, p) => .error ⟨problem, p.location file⟩
  | '(' :: '*' :: rest =>
    match commentEnd? false rest ((start.position.after '(').after '*') with
    | some stop => .ok (none, stop)
    | none => .error ⟨.unterminatedComment, location⟩
  | c :: rest =>
    if isBlank c then .ok (none, (takeRun isBlank (c :: rest) start.position).2)
    else if isWordStart c then
      let (word, stop) := takeRun isWordPart (c :: rest) start.position
      .ok (some ⟨wordKind (String.ofList word), String.ofList word, location⟩, stop)
    else if c.isDigit then
      let (digits, stop) := takeRun isNumberPart (c :: rest) start.position
      .ok (some ⟨numberKind digits, String.ofList digits, location⟩, stop)
    else
      match punctuation? (c :: rest) with
      | some kind => .ok (some ⟨kind, kind.text, location⟩, pass kind.text.length start)
      | none => .error ⟨.invalidCharacter c.toString, location⟩

/-- The tokens of at most `bound` lexemes and the position where reading stopped. A lexeme takes
at least one character, so the number of characters left is bound enough. -/
def scan (file : String) : (bound : Nat) → Cursor → Except Diagnostic (List Token × Position)
  | 0, c => .ok ([], c.settle.position)
  | bound + 1, c =>
    match c.settle with
    | ⟨[], p⟩ => .ok ([], p)
    | start => do
      let (token, next) ← lexeme file start
      let (tokens, stop) ← scan file bound next
      return (token.toList ++ tokens, stop)

def tokens (text : List Char) (file : String) : Except Diagnostic (List Token) := do
  let (tokens, stop) ← scan file text.length (.ofText text)
  if tokens.getLast?.any Token.isNewline then return tokens
  else return tokens ++ [⟨.newline, "\n", stop.location file⟩]

end Lexer

def defaultFile : String := "shell"

def tokenize (source : String) (file : String) : Except Diagnostic TokenSequence := do
  return .ofList (← Lexer.tokens source.toList file) file

end MiniMl
