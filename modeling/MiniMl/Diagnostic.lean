import MiniMl.Source.Location

/-! # Diagnostics

What can be wrong with a program, where, and how it is shown to the reader.
-/

namespace MiniMl

inductive Category where
  | lexical | syntactic | scope | type
deriving DecidableEq, Repr

inductive Problem where
  | unterminatedString
  | stringTooLong (limit : Nat)
  | unterminatedComment
  | invalidCharacter (character : String)
  | unexpectedToken (expected found : String)
  | unexpectedExpression (found : String)
  | prematureEnd
  | undefinedVar (name : String)
  | typeMismatch (expected found : String)
  | unexpectedType (found : String)
  | arityMismatch (name : String) (expected received : Nat)
  | notAFunction (name : String)
  | intOutOfRange (literal : String)
  | invalidFloat (literal : String)
deriving DecidableEq, Repr

namespace Problem

def category : Problem → Category
  | unterminatedString | stringTooLong _ | unterminatedComment | invalidCharacter _ => .lexical
  | unexpectedToken .. | unexpectedExpression _ | prematureEnd => .syntactic
  | undefinedVar _ => .scope
  | typeMismatch .. | unexpectedType _ | arityMismatch .. | notAFunction _ | intOutOfRange _
  | invalidFloat _ => .type

def message : Problem → String
  | unterminatedString => "unterminated string literal"
  | stringTooLong limit => "unterminated string literal, more than " ++ toString limit ++ " char"
  | unterminatedComment => "unterminated block comment"
  | invalidCharacter character => "invalid character `" ++ character ++ "`"
  | unexpectedToken expected found =>
    "Token `" ++ expected ++ "` expected, but got `" ++ found ++ "`"
  | unexpectedExpression found => "expression expected, but got `" ++ found ++ "`"
  | prematureEnd => "premature end of input"
  | undefinedVar name => "undefined var `" ++ name ++ "`"
  | typeMismatch expected found =>
    "Type `" ++ expected ++ "` expected, but got `" ++ found ++ "`"
  | unexpectedType found => "Unexpected type `" ++ found ++ "` found here"
  | arityMismatch name expected received =>
    "function `" ++ name ++ "` expects " ++ toString expected ++ " argument(s), but got " ++
      toString received
  | notAFunction name => "`" ++ name ++ "` is not a function"
  | intOutOfRange _ => "int out of range"
  | invalidFloat literal => "invalid float literal `" ++ literal ++ "`"

def tip? : Problem → Option String
  | stringTooLong limit =>
    some ("string literals hold at most " ++ toString limit ++ " characters")
  | unterminatedString => some "did you forget a closing `\"`?"
  | unterminatedComment => some "close the comment with `*)`"
  | unexpectedToken ";;" _ => some "statements end with `;;`"
  | undefinedVar name =>
    some ("if `" ++ name ++ "` refers to the function being defined, declare it with `let rec`")
  | arityMismatch name expected _ =>
    some ("`" ++ name ++ "` takes " ++ toString expected ++ " argument(s)")
  | intOutOfRange literal => some ("`" ++ literal ++ "` does not fit in a 64-bit integer")
  | _ => none

end Problem

structure Diagnostic where
  problem : Problem
  location : Location
deriving DecidableEq, Repr

namespace Diagnostic

def display (d : Diagnostic) : String :=
  d.location.display ++ ": error: " ++ d.problem.message

def isIndentation (c : Char) : Bool := c == ' ' || c == '\t'

/-- The diagnostic, the line it is about without its indentation, a caret under the character
at fault, and the advice there is. -/
def render (d : Diagnostic) (source : String) : String :=
  let line := d.location.lineText source
  let removed := (line.takeWhile isIndentation).length
  d.display ++ "\n" ++ String.ofList (line.drop removed) ++ "\n" ++
    String.ofList (List.replicate (d.location.indent - removed) ' ') ++ "^" ++
    match d.problem.tip? with
    | some tip => "\nhelp: " ++ tip
    | none => ""

end Diagnostic

end MiniMl
