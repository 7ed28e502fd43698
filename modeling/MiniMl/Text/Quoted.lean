import MiniMl.Text.Unprintable

/-! # Quoted text

A text in double quotes. Six characters are escaped by a letter or themselves, those that would not
be seen by their number, and all others stand for themselves.
-/

namespace MiniMl

namespace Quoted

/-- The escape of a character by its number in hexadecimal. -/
def numbered (c : Char) : List Char :=
  '\\' :: 'u' :: '\x7b' :: Nat.toDigits 16 c.toNat ++ ['\x7d']

def escape : Char → List Char
  | '\x00' => ['\\', '0']
  | '\t' => ['\\', 't']
  | '\n' => ['\\', 'n']
  | '\r' => ['\\', 'r']
  | '"' => ['\\', '"']
  | '\\' => ['\\', '\\']
  | c => if isUnprintable c then numbered c else [c]

end Quoted

def quoted (text : String) : String :=
  String.ofList ('"' :: text.toList.flatMap Quoted.escape ++ ['"'])

end MiniMl
