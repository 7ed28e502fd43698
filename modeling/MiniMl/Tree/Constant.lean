import MiniMl.Diagnostic
import MiniMl.Number.Binary64
import MiniMl.Token.Basic
import MiniMl.Typing.Store

/-! # Constants

The values that single tokens write.
-/

namespace MiniMl

inductive Constant where
  | int (value : Int)
  | float (value : Binary64)
  | bool (value : Bool)
  | string (value : String)
  | unit
deriving DecidableEq, Repr

namespace Constant

def kind : Constant → Kind
  | int _ => .int
  | float _ => .float
  | bool _ => .bool
  | string _ => .string
  | unit => .unit

def unquote (text : String) : String :=
  match text.toList with
  | '"' :: rest => if rest.getLast? = some '"' then String.ofList rest.dropLast else text
  | _ => text

/-- The characters of a number literal. Underscores only group its digits. -/
def numeral (text : String) : List Char := text.toList.filter (· != '_')

def ofToken (token : Token) : Except Problem Constant :=
  match token.kind with
  | .int =>
    match int64? (numeral token.value) with
    | some n => .ok (int n)
    | none => .error (.intOutOfRange token.value)
  | .float =>
    match Binary64.read? (numeral token.value) with
    | some x => .ok (float x)
    | none => .error (.invalidFloat token.value)
  | .bool => .ok (bool (token.value == "true"))
  | .string => .ok (string (unquote token.value))
  | _ => .ok unit

end Constant

end MiniMl
