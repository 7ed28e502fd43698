import MiniMl.Parser.Grammar
import MiniMl.Token.Lexer

/-! # Programs

A program from its tokens or from its source.
-/

namespace MiniMl

/-- The checked program that a list of tokens writes, or the first problem. -/
def parse (tokens : TokenSequence) : Except Diagnostic Program :=
  match Parse.stmts tokens.ahead.length (Parser.ofTokens tokens) with
  | .ok stmts p => .ok ⟨stmts, Parser.fileScope, p.arena, p.store⟩
  | .error d _ => .error d

def compile (source : String) (file : String) : Except Diagnostic Program := do
  parse (← tokenize source file)

end MiniMl
