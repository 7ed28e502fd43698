import MiniMl.Source.Location

/-! # Tokens

The kinds of token, their fixed spellings, the reserved words, and tokens as located lexemes.
-/

namespace MiniMl

inductive TokenKind where
  | endOfInput
  | newline
  | invalid
  | identifier | int | float | bool | string
  /-- The empty pair of parentheses. -/
  | unit
  | openParen | closeParen | comma | semicolon | doubleSemicolon
  | assignment | equals | notEquals | less | lessEquals | greater | greaterEquals
  | logicalAnd | logicalOr
  | plus | dash | star | slash
  | letWord | recWord | andWord | inWord | ifWord | thenWord | elseWord
  | whileWord | doWord | doneWord | fstWord | sndWord
deriving DecidableEq, Repr

namespace TokenKind

/-- The kind as diagnostics show it: its spelling if it has only one. -/
def text : TokenKind → String
  | endOfInput => "end of input"
  | newline => "newline"
  | invalid => "invalid"
  | identifier => "identifier"
  | int => "int literal"
  | float => "float literal"
  | bool => "bool literal"
  | string => "string literal"
  | unit => "()"
  | openParen => "("
  | closeParen => ")"
  | comma => ","
  | semicolon => ";"
  | doubleSemicolon => ";;"
  | assignment => "="
  | equals => "=="
  | notEquals => "!="
  | less => "<"
  | lessEquals => "<="
  | greater => ">"
  | greaterEquals => ">="
  | logicalAnd => "&&"
  | logicalOr => "||"
  | plus => "+"
  | dash => "-"
  | star => "*"
  | slash => "/"
  | letWord => "let"
  | recWord => "rec"
  | andWord => "and"
  | inWord => "in"
  | ifWord => "if"
  | thenWord => "then"
  | elseWord => "else"
  | whileWord => "while"
  | doWord => "do"
  | doneWord => "done"
  | fstWord => "fst"
  | sndWord => "snd"

def name : TokenKind → String
  | endOfInput => "End"
  | newline => "Newline"
  | invalid => "Invalid"
  | identifier => "Var"
  | int => "Int"
  | float => "Float"
  | bool => "Bool"
  | string => "String"
  | unit => "Unit"
  | openParen => "OpenParen"
  | closeParen => "CloseParen"
  | comma => "Comma"
  | semicolon => "Semicolon"
  | doubleSemicolon => "DoubleSemicolon"
  | assignment => "Assignment"
  | equals => "Equals"
  | notEquals => "NotEquals"
  | less => "Less"
  | lessEquals => "LessEquals"
  | greater => "Greater"
  | greaterEquals => "GreaterEquals"
  | logicalAnd => "LogicalAnd"
  | logicalOr => "LogicalOr"
  | plus => "Plus"
  | dash => "Dash"
  | star => "Star"
  | slash => "Slash"
  | letWord => "Let"
  | recWord => "Rec"
  | andWord => "And"
  | inWord => "In"
  | ifWord => "If"
  | thenWord => "Then"
  | elseWord => "Else"
  | whileWord => "While"
  | doWord => "Do"
  | doneWord => "Done"
  | fstWord => "Fst"
  | sndWord => "Snd"

def all : List TokenKind :=
  [endOfInput, newline, invalid, identifier, int, float, bool, string, unit, openParen, closeParen,
    comma, semicolon, doubleSemicolon, assignment, equals, notEquals, less, lessEquals, greater,
    greaterEquals, logicalAnd, logicalOr, plus, dash, star, slash, letWord, recWord, andWord, inWord,
    ifWord, thenWord, elseWord, whileWord, doWord, doneWord, fstWord, sndWord]

def ofName? (name : String) : Option TokenKind := all.find? (·.name == name)

def reserved? : String → Option TokenKind
  | "let" => some letWord
  | "rec" => some recWord
  | "and" => some andWord
  | "in" => some inWord
  | "if" => some ifWord
  | "then" => some thenWord
  | "else" => some elseWord
  | "while" => some whileWord
  | "do" => some doWord
  | "done" => some doneWord
  | "fst" => some fstWord
  | "snd" => some sndWord
  | "true" => some bool
  | "false" => some bool
  | _ => none

/-- Whether tokens of this kind differ in their spelling. -/
def hasSpelling : TokenKind → Bool
  | identifier | int | float | bool | string => true
  | _ => false

end TokenKind

structure Token where
  kind : TokenKind
  value : String
  location : Location
deriving DecidableEq, Repr

namespace Token

def display (t : Token) : String :=
  match t.kind with
  | .endOfInput | .newline => t.kind.text
  | _ => t.value

def describe (t : Token) : String :=
  if t.kind.hasSpelling then t.kind.name ++ "(" ++ t.value ++ ")" else t.kind.name

def isNewline (t : Token) : Bool := t.kind == .newline

end Token

end MiniMl
