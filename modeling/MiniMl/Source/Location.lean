/-! # Locations

A location names a character of a source by the line it is on. Lines and columns count from
one and columns count characters, both without bound; where a source satisfies `LinesFit`, 32 bits
hold them. `lineBegin` is the offset, in UTF-8 bytes, of the line's first character.
-/

namespace MiniMl

structure Location where
  file : String
  line : Nat
  column : Nat
  lineBegin : Nat
deriving DecidableEq, Repr

def utf8Length : List Char → Nat
  | [] => 0
  | c :: rest => c.utf8Size + utf8Length rest

/-- What is left after the given number of bytes, if that cut falls between two characters. -/
def dropBytes? : Nat → List Char → Option (List Char)
  | 0, text => some text
  | _ + 1, [] => none
  | n + 1, c :: rest => if c.utf8Size ≤ n + 1 then dropBytes? (n + 1 - c.utf8Size) rest else none

def firstLine (text : List Char) : List Char := text.takeWhile (· != '\n')

def trimReturns (text : List Char) : List Char := (text.reverse.dropWhile (· == '\r')).reverse

namespace Location

def start (file : String) : Location := ⟨file, 1, 1, 0⟩

def null : Location := start "<null>"

def display (loc : Location) : String :=
  loc.file ++ ":" ++ toString loc.line ++ ":" ++ toString loc.column

/-- The source from the beginning of the line on; empty when there is no such line. -/
def lineOnwards (loc : Location) (source : String) : List Char :=
  (dropBytes? loc.lineBegin source.toList).getD []

/-- The byte offset of the character itself, or of the end of the source if it ends before. -/
def byteOffset (loc : Location) (source : String) : Nat :=
  loc.lineBegin + utf8Length ((loc.lineOnwards source).take (loc.column - 1))

def lineText (loc : Location) (source : String) : List Char :=
  trimReturns (firstLine (loc.lineOnwards source))

def indent (loc : Location) : Nat := loc.column - 1

end Location

end MiniMl
