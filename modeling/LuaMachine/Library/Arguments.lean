import LuaMachine.Machine.Fault

/-!
# Arguments of native functions

The values that a native function was called with, and the checks by which it reads them. Positions
count from zero; the faults that a script sees count them from one. An argument that was not passed
reads as `nil`.
-/

namespace LuaMachine

/-- The arguments of a call. -/
structure Arguments where
  values : List Value
deriving Repr, Inhabited

namespace Arguments

def size (a : Arguments) : Nat := a.values.length

def isEmpty (a : Arguments) : Bool := a.values.isEmpty

def get? (a : Arguments) (i : Nat) : Option Value := a.values[i]?

def get (a : Arguments) (i : Nat) : Value := (a.get? i).getD .nil

/-- The arguments after the first `n`. -/
def skip (a : Arguments) (n : Nat) : Arguments := ⟨a.values.drop n⟩

/-- The fault of an argument that is not of the type that a function wants. -/
def mismatch (i : Nat) (function expected : String) (got : Value) : Fault :=
  .badArgument (i + 1) function expected (if got.isNil then "no value" else got.typeName)

/-- A number, or a text that spells one. -/
def number (a : Arguments) (i : Nat) (function : String) : Except Fault Number :=
  match (a.get i).toNumber? with
  | some n => .ok n
  | none => .error (mismatch i function "number" (a.get i))

/-- A whole number, clamped to 64 bits. -/
def integer (a : Arguments) (i : Nat) (function : String) : Except Fault Int := do
  let n ← a.number i function
  if n.isIntegral then return n.toInteger else throw (.notIntegral (i + 1) function)

/-- A text; a number gives its text. -/
def string (a : Arguments) (i : Nat) (function : String) : Except Fault String :=
  match (a.get i).toConcatText? with
  | some s => .ok s
  | none => .error (mismatch i function "string" (a.get i))

def table (a : Arguments) (i : Nat) (function : String) : Except Fault TableId :=
  match a.get i with
  | .table id => .ok id
  | v => .error (mismatch i function "table" v)

/-- Any value, so long as one was passed. -/
def any (a : Arguments) (i : Nat) (function : String) : Except Fault Value :=
  match a.get? i with
  | some v => .ok v
  | none => .error (.valueExpected (i + 1) function)

/-- A number, or the default in place of `nil`. -/
def numberD (a : Arguments) (i : Nat) (function : String) (default : Number) :
    Except Fault Number :=
  if (a.get i).isNil then .ok default else a.number i function

/-- A coroutine, as the first argument. -/
def coroutine (a : Arguments) (function : String) : Except Fault CoroutineId :=
  match a.get 0 with
  | .coroutine id => .ok id
  | v => .error (.badArgument 1 function "coroutine" v.typeName)

end Arguments

end LuaMachine
