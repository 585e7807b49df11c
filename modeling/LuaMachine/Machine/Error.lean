import LuaMachine.Machine.Fault
import LuaMachine.Dump.Error
import LuaMachine.SyntaxError
import LuaMachine.Source.Span
import LuaMachine.Value.Text

/-!
# Errors

What a script operation can fail with. Only runtime errors can be caught by a script. A runtime
error carries the value that was raised; on its way out it gets the place it was raised at
(`RuntimeError.decorate`) once.
-/

namespace LuaMachine

/-- An error that a script raised or ran into. -/
structure RuntimeError where
  message : String
  /-- the message with the place in front of it -/
  decorated : Option String := none
  location : Option Span := none
  /-- the value that a protected call hands to the script -/
  value : Value
  /-- the names of the functions that were running, innermost first -/
  callStack : List String := []
deriving Repr

namespace RuntimeError

def ofMessage (message : String) : RuntimeError := { message, value := .string message }

def ofFault (f : Fault) : RuntimeError := ofMessage f.message

/-- The message of a raised value: its text if it is a string, a number or `nil`. -/
def messageOf : Value → String
  | .string s => s
  | .nil => "nil"
  | v => match v.toNumber? with
    | some _ => v.display fun _ => none
    | none => s!"(error object is a {v.typeName} value)"

def ofValue (v : Value) : RuntimeError := { message := messageOf v, value := v }

/-- Put a place in front of the message, unless that was done before. A string value changes with
its message. -/
def decorate (e : RuntimeError) (location : Option Span) (place : String) : RuntimeError :=
  match e.decorated with
  | some _ => e
  | none =>
    let text := s!"{place}: {e.message}"
    { e with
      decorated := some text
      location
      value := match e.value with
        | .string _ => .string text
        | v => v }

def display (e : RuntimeError) : String := e.decorated.getD e.message

end RuntimeError

/-- What went wrong with a file. -/
inductive IoError where
  | notFound
  | isADirectory
  | notADirectory
  /-- the content is not text -/
  | invalidData
deriving DecidableEq, Repr

namespace IoError

def kind : IoError → String
  | notFound => "NotFound"
  | isADirectory => "IsADirectory"
  | notADirectory => "NotADirectory"
  | invalidData => "InvalidData"

def message : IoError → String
  | notFound => "No such file or directory (os error 2)"
  | isADirectory => "Is a directory (os error 21)"
  | notADirectory => "Not a directory (os error 20)"
  | invalidData => "stream did not contain valid UTF-8"

end IoError

/-- The ways in which an operation on a script fails. -/
inductive ScriptError where
  | syntaxError (e : SyntaxError)
  | runtime (e : RuntimeError)
  /-- a script was entered from a second thread -/
  | threadAccess (owner current : String)
  | functionNotFound (name : String)
  | cancelled
  | dump (e : DumpError)
  | io (e : IoError)
deriving Repr

namespace ScriptError

def ofFault (f : Fault) : ScriptError := runtime (.ofFault f)

def display : ScriptError → String
  | syntaxError e => e.display
  | runtime e => e.display
  | threadAccess owner current =>
    s!"cannot enter the same script processor from two different threads: {owner} and {current}"
  | functionNotFound name => s!"function '{name}' was not found"
  | cancelled => "script execution was cancelled"
  | dump e => e.message
  | io e => s!"i/o error: {e.message}"

/-- The kind of an error. -/
def kind : ScriptError → String
  | syntaxError _ => "Syntax"
  | runtime _ => "Runtime"
  | threadAccess .. => "ThreadAccessViolation"
  | functionNotFound _ => "FunctionNotFound"
  | cancelled => "Cancelled"
  | dump _ => "Dump"
  | io _ => "Io"

/-- Whether a protected call can catch it. -/
def isCatchable : ScriptError → Bool
  | runtime _ => true
  | _ => false

def isPremature : ScriptError → Bool
  | syntaxError e => e.premature
  | _ => false

end ScriptError

end LuaMachine
