import MiniMl.Parser.Program
import MiniMl.Tree.Dump

/-! # The command line

What a run prints and with which status it ends, given its arguments and how reading the file
they name went.
-/

namespace MiniMl.CommandLine

inductive Mode where
  | tokens
  | tree
deriving DecidableEq, Repr

structure Request where
  mode : Mode
  path : String
deriving DecidableEq, Repr

def Request.ofArgs? : List String → Option Request
  | [path] => some ⟨.tree, path⟩
  | ["-p", path] => some ⟨.tree, path⟩
  | ["-l", path] => some ⟨.tokens, path⟩
  | _ => none

inductive ReadFailure where
  | system (reason : String) (code : Nat)
  | notText
deriving DecidableEq, Repr

def ReadFailure.message : ReadFailure → String
  | system reason code => reason ++ " (os error " ++ toString code ++ ")"
  | notText => "stream did not contain valid UTF-8"

structure Outcome where
  status : Nat
  output : String
  errors : String
deriving DecidableEq, Repr

def usage : String := "usage: leoml [-l | -p] <file>"

def failed (status : Nat) (message : String) : Outcome := ⟨status, "", message ++ "\n"⟩

def fileName (path : String) : String :=
  String.ofList (path.toList.reverse.takeWhile (· != '/')).reverse

def padLeft (width : Nat) (text : String) : String :=
  String.ofList (List.replicate (width - text.length) ' ') ++ text

/-- The tokens line by line, each line with its number in front. -/
def listing : (atLineBegin : Bool) → List Token → String
  | _, [] => ""
  | atLineBegin, t :: rest =>
    (if atLineBegin then padLeft 4 (toString t.location.line) ++ " | " else "") ++
      (if t.isNewline then "\n" else t.describe ++ " ") ++ listing t.isNewline rest

def process (request : Request) (source : String) : Outcome :=
  let file := fileName request.path
  match request.mode with
  | .tokens =>
    match tokenize source file with
    | .ok tokens => ⟨0, listing true tokens.toList, ""⟩
    | .error d => failed 1 (d.render source)
  | .tree =>
    match compile source file with
    | .ok program => ⟨0, program.dump, ""⟩
    | .error d => failed 1 (d.render source)

def respond (request : Request) : Except ReadFailure String → Outcome
  | .ok source => process request source
  | .error e => failed 1 ("Failed to read " ++ request.path ++ ": " ++ e.message)

/-- A whole run, given how files are read. -/
def run (args : List String) (read : String → Except ReadFailure String) : Outcome :=
  match Request.ofArgs? args with
  | some request => respond request (read request.path)
  | none => failed 2 usage

end MiniMl.CommandLine
