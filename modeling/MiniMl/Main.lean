import MiniMl.CommandLine.Basic

/-! # The program

Reads the file, prints what the run gives and ends with its status.
-/

namespace MiniMl.CommandLine

/-- Codes of the system may come as the negative number in 32 bits. -/
def errorCode (code : UInt32) : Nat :=
  if code.toNat < powerOfTwo 31 then code.toNat else powerOfTwo 32 - code.toNat

def ReadFailure.ofError (e : IO.Error) : ReadFailure :=
  match e with
  | .noFileOrDirectory _ code reason => .system reason.capitalize (errorCode code)
  | .inappropriateType _ code reason => .system reason.capitalize (errorCode code)
  | .permissionDenied _ code reason => .system reason.capitalize (errorCode code)
  | e => .system (toString e) 5

def readSource (path : String) : IO (Except ReadFailure String) := do
  try
    let content ← IO.FS.readBinFile path
    match String.fromUTF8? content with
    | some text => return .ok text
    | none => return .error .notText
  catch e => return .error (.ofError e)

/-- Runs the program; the status tells whether the arguments, the file and the text in it were all
right. -/
def execute (args : List String) : IO UInt32 := do
  let outcome ←
    match Request.ofArgs? args with
    | some request => pure (respond request (← readSource request.path))
    | none => pure (failed 2 usage)
  IO.print outcome.output
  IO.eprint outcome.errors
  return outcome.status.toUInt32

end MiniMl.CommandLine

def main (args : List String) : IO UInt32 := MiniMl.CommandLine.execute args
