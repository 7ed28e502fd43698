import MiniMl.Source.Location

/-! # Reading a source character by character

A backslash directly followed by a newline continues the line: readers never see the pair, but
positions count it. `Cursor` is the unread text and where it starts; `Reader` adds one step back.
-/

namespace MiniMl

/-- Where a character stands, `offset` being its distance in bytes from the start of the source.
Lines and columns are those of locations, counted without bound. -/
structure Position where
  offset : Nat
  line : Nat
  column : Nat
  lineBegin : Nat
deriving DecidableEq, Repr

namespace Position

def start : Position := ⟨0, 1, 1, 0⟩

def after (p : Position) (c : Char) : Position :=
  if c = '\n' then ⟨p.offset + c.utf8Size, p.line + 1, 1, p.offset + c.utf8Size⟩
  else ⟨p.offset + c.utf8Size, p.line, p.column + 1, p.lineBegin⟩

def location (p : Position) (file : String) : Location := ⟨file, p.line, p.column, p.lineBegin⟩

end Position

structure Cursor where
  rest : List Char
  position : Position
deriving DecidableEq, Repr

namespace Cursor

def ofText (text : List Char) : Cursor := ⟨text, .start⟩

def skipContinuations : List Char → Position → Cursor
  | '\\' :: '\n' :: rest, p => skipContinuations rest ((p.after '\\').after '\n')
  | text, p => ⟨text, p⟩

def settle (c : Cursor) : Cursor := skipContinuations c.rest c.position

/-- The next character and the cursor behind it, unless only continuations are left. -/
def next? (c : Cursor) : Option (Char × Cursor) :=
  match c.settle with
  | ⟨[], _⟩ => none
  | ⟨x :: rest, p⟩ => some (x, ⟨rest, p.after x⟩)

end Cursor

/-- A cursor that remembers where the last character was read from, until that is undone. -/
structure Reader where
  cursor : Cursor
  previous : Option Cursor
deriving DecidableEq, Repr

namespace Reader

def ofText (text : List Char) : Reader := ⟨.ofText text, none⟩

/-- The next character; continuations in front of it are passed. -/
def peek (r : Reader) : Option Char × Reader :=
  (r.cursor.settle.rest.head?, { r with cursor := r.cursor.settle })

def next (r : Reader) : Option Char × Reader :=
  match r.cursor.next? with
  | some (x, cursor) => (some x, ⟨cursor, some r.cursor⟩)
  | none => (none, { r with cursor := r.cursor.settle })

/-- Undoes the last `next` that read a character, with the continuations it passed. -/
def putBack (r : Reader) : Reader :=
  match r.previous with
  | some cursor => ⟨cursor, none⟩
  | none => r

def atEnd (r : Reader) : Bool × Reader :=
  let (c, r) := r.peek
  (c.isNone, r)

end Reader

end MiniMl
