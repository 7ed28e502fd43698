import MiniMl.Scope.Symbol

/-! # Scopes

Scopes are numbered in the order of their creation and know their parents by number. Each one
binds plain names and, apart from them, tags, which record the functions defined in it. A look-up
goes outwards and ends at the first file scope.
-/

namespace MiniMl

inductive ScopeKind where
  | file | block | function
deriving DecidableEq, Repr

abbrev ScopeId := Nat

inductive Key where
  | plain (name : String)
  | tag (name : String)
deriving DecidableEq, Repr

namespace Key

def stem? : List Char → Option (List Char)
  | 'g' :: 'a' :: 't' :: ':' :: '@' :: rest => some rest.reverse
  | _ => none

/-- The key that a name stands for: names that end in `@:tag` stand for tags. -/
def ofName (name : String) : Key :=
  match stem? name.toList.reverse with
  | some stem => tag (String.ofList stem)
  | none => plain name

def isTag : Key → Bool
  | tag _ => true
  | plain _ => false

def text : Key → String
  | plain name => name
  | tag name => name ++ "@:tag"

end Key

abbrev Bindings := List (Key × Symbol)

namespace Bindings

def find? (b : Bindings) (key : Key) : Option Symbol := b.lookup key

def insert (b : Bindings) (key : Key) (symbol : Symbol) : Bindings :=
  (key, symbol) :: b.filter (·.1 ≠ key)

/-- The bindings with those of another scope whose keys are free. -/
def append (b other : Bindings) : Bindings :=
  b ++ other.filter fun entry => (b.find? entry.1).isNone

def tags (b : Bindings) : List Symbol :=
  ((b.filter (·.1.isTag)).map (·.2)).mergeSort fun x y => x.name ≤ y.name

def plain (b : Bindings) : Bindings :=
  (b.filter (!·.1.isTag)).mergeSort fun x y => x.1.text ≤ y.1.text

end Bindings

structure Scope where
  kind : ScopeKind
  parent : Option ScopeId
  bindings : Bindings
deriving DecidableEq, Repr

structure Arena where
  scopes : Array Scope
deriving DecidableEq, Repr

namespace Arena

def empty : Arena := ⟨#[]⟩

def size (a : Arena) : Nat := a.scopes.size

def create (a : Arena) (kind : ScopeKind) (parent : Option ScopeId) : ScopeId × Arena :=
  (a.scopes.size, ⟨a.scopes.push ⟨kind, parent, []⟩⟩)

def kind? (a : Arena) (id : ScopeId) : Option ScopeKind := a.scopes[id]?.map (·.kind)

def parent? (a : Arena) (id : ScopeId) : Option ScopeId := a.scopes[id]?.bind (·.parent)

def bindings (a : Arena) (id : ScopeId) : Bindings := (a.scopes[id]?.map (·.bindings)).getD []

def setParent (a : Arena) (id : ScopeId) (parent : Option ScopeId) : Arena :=
  ⟨a.scopes.modify id fun s => { s with parent }⟩

def setBindings (a : Arena) (id : ScopeId) (bindings : Bindings) : Arena :=
  ⟨a.scopes.modify id fun s => { s with bindings }⟩

def bind (a : Arena) (id : ScopeId) (key : Key) (symbol : Symbol) : Arena :=
  a.setBindings id ((a.bindings id).insert key symbol)

def insert (a : Arena) (id : ScopeId) (symbol : Symbol) : Arena :=
  a.bind id (.ofName symbol.name) symbol

def insertTag (a : Arena) (id : ScopeId) (symbol : Symbol) : Arena :=
  a.bind id (.tag symbol.name) symbol

/-- Copies the bindings of one scope into another, which keeps those it has. -/
def append (a : Arena) (source target : ScopeId) : Arena :=
  if source = target then a
  else a.setBindings target ((a.bindings target).append (a.bindings source))

def lookup (a : Arena) (key : Key) : (bound : Nat) → ScopeId → Option Symbol
  | 0, _ => none
  | bound + 1, id =>
    match a.scopes[id]? with
    | none => none
    | some s =>
      match s.bindings.find? key with
      | some symbol => some symbol
      | none =>
        if s.kind = .file then none
        else
          match s.parent with
          | some parent => lookup a key bound parent
          | none => none

/-- The symbol that a key is bound to, seen from a scope. A chain of parents without a cycle is no
longer than there are scopes. -/
def resolve (a : Arena) (id : ScopeId) (key : Key) : Option Symbol := a.lookup key a.size id

def find? (a : Arena) (id : ScopeId) (name : String) : Option Symbol := a.resolve id (.ofName name)

def findToken? (a : Arena) (id : ScopeId) (token : Token) : Option Symbol := a.find? id token.value

def findTag? (a : Arena) (id : ScopeId) (name : String) : Option Symbol := a.resolve id (.tag name)

def findHere? (a : Arena) (id : ScopeId) (name : String) : Option Symbol :=
  (a.bindings id).find? (.ofName name)

def findTagHere? (a : Arena) (id : ScopeId) (name : String) : Option Symbol :=
  (a.bindings id).find? (.tag name)

def tags (a : Arena) (id : ScopeId) : List Symbol := (a.bindings id).tags

def dump (a : Arena) (id : ScopeId) (s : Store) : List String :=
  (a.bindings id).plain.map fun entry => entry.1.text ++ " [" ++ entry.2.typeName s ++ "]"

end Arena

end MiniMl
