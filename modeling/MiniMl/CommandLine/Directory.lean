import MiniMl.CommandLine.Basic

/-! # A directory in memory

Files by the names on the way to them, and how a path is followed from the directory that holds
them all.
-/

namespace MiniMl.CommandLine

structure Directory where
  files : List (List String × ByteArray)

namespace Directory

/-- Where a path leads to. Nothing is known about what lies outside. -/
inductive Place where
  | directory (names : List String)
  | file (content : ByteArray)
  | outside

def notFound : ReadFailure := .system "No such file or directory" 2

def isDirectory : ReadFailure := .system "Is a directory" 21

def notADirectory : ReadFailure := .system "Not a directory" 20

/-- The names of a path. Empty ones stand for the place itself. -/
def names (path : String) : List String := path.splitOn "/"

def ofFiles (files : List (String × ByteArray)) : Directory :=
  ⟨files.map fun f => ((names f.1).filter fun n => n ≠ "" ∧ n ≠ ".", f.2)⟩

def enter (d : Directory) : Place → String → Except ReadFailure Place
  | .file _, _ => .error notADirectory
  | .outside, name => if name ∈ ["", ".", ".."] then .ok .outside else .error notFound
  | .directory here, name =>
    if name = "" ∨ name = "." then .ok (.directory here)
    else if name = ".." then .ok (if here = [] then .outside else .directory here.dropLast)
    else
      let there := here ++ [name]
      match d.files.find? (·.1 = there) with
      | some file => .ok (.file file.2)
      | none =>
        if d.files.any fun f => there.isPrefixOf f.1 then .ok (.directory there)
        else .error notFound

def walk (d : Directory) : Place → List String → Except ReadFailure Place
  | place, [] => .ok place
  | place, name :: rest =>
    match d.enter place name with
    | .ok next => walk d next rest
    | .error e => .error e

def read (d : Directory) (path : String) : Except ReadFailure String :=
  if path = "" then .error notFound
  else
    match d.walk (if path.toList.head? = some '/' then .outside else .directory []) (names path) with
    | .error e => .error e
    | .ok (.file content) =>
      match String.fromUTF8? content with
      | some text => .ok text
      | none => .error .notText
    | .ok _ => .error isDirectory

end Directory

end MiniMl.CommandLine
