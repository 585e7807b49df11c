import LuaMachine.Value.Key
import LuaMachine.Text.Quoted

/-!
# Faults

Why the machine, its library or its host refuses an operation of a script. The wording of every
fault is in `Fault.message`; types are named as scripts see them.
-/

namespace LuaMachine

/-- The states of a coroutine. -/
inductive CoroutineState where
  | main | notStarted | running | suspended | dead
deriving DecidableEq, Repr

namespace CoroutineState

def name : CoroutineState → String
  | main => "Main"
  | notStarted => "NotStarted"
  | running => "Running"
  | suspended => "Suspended"
  | dead => "Dead"

def ofName? (name : String) : Option CoroutineState :=
  [main, notStarted, running, suspended, dead].find? (·.name == name)

/-- The changes of state that a coroutine may make. -/
def canBecome : CoroutineState → CoroutineState → Bool
  | notStarted, running | running, suspended | suspended, running | running, dead => true
  | _, _ => false

end CoroutineState

/-- Why an operation is refused. -/
inductive Fault where
  /- the machine -/
  | stackUnderflow
  | noFrame
  | noScriptFrame
  | returnWithoutFrame
  | invalidAddress (address : Nat)
  | invalidUpvalue (name : String)
  | stackOverflow
  /- calls -/
  | call (type : String)
  | callChain
  | foreignFunction
  | yieldOutside
  | yieldAcrossHost
  /- operators -/
  | arithmetic (type : String)
  | concatenate (type : String)
  | compare (left right : String)
  | length (type : String)
  | index (type : String)
  | indexChain
  | newindexChain
  | loopNumber (what : String)
  | envNotTable (type : String)
  | assignDefaultEnv
  | table (fault : TableFault)
  /- arguments of native functions, counted from one -/
  | badArgument (index : Nat) (function expected got : String)
  | notIntegral (index : Nat) (function : String)
  | valueExpected (index : Nat) (function : String)
  | argumentOf (index : Nat) (function reason : String)
  /- the library -/
  | assertion
  | protectedMetatable
  | tableOrString
  | tostringResult
  | readerResult
  | tooManyResults
  /- coroutines -/
  | foreignCoroutineBody
  | foreignCoroutine
  | deadCoroutine
  | busyCoroutine
  | transition (old new : CoroutineState)
  /- host objects -/
  | noField (field type : String)
  | noAssignment (field type : String)
  | readOnly (field type : String)
  | notRegistered (type : String)
  | balanceNumber
  /- scripts -/
  | alreadyRunning
  | foreignDump
  | noSource (index : Nat)
  | abandoned
  | intrudeNeedsCheck
  | hostPanic (message : String)
  /- raised by a host function in its own words -/
  | raised (message : String)
deriving DecidableEq, Repr

def Fault.message : Fault → String
  | stackUnderflow => "value stack underflow"
  | noFrame => "no active frame"
  | noScriptFrame => "no active script frame"
  | returnWithoutFrame => "return without an active frame"
  | invalidAddress a => s!"invalid code address {Text.hexPadded 8 a}"
  | invalidUpvalue name => s!"invalid upvalue '{name}'"
  | stackOverflow => "stack overflow"
  | call type => s!"attempt to call a {type} value"
  | callChain => "'__call' chain too long; possible loop"
  | foreignFunction => "attempt to call a function of a different script"
  | yieldOutside => "attempt to yield from outside a coroutine"
  | yieldAcrossHost => "attempt to yield across a host-call boundary"
  | arithmetic type => s!"attempt to perform arithmetic on a {type} value"
  | concatenate type => s!"attempt to concatenate a {type} value"
  | compare left right =>
    if left == right then s!"attempt to compare two {left} values"
    else s!"attempt to compare {left} with {right}"
  | length type => s!"attempt to get length of a {type} value"
  | index type => s!"attempt to index a {type} value"
  | indexChain => "'__index' chain too long; possible loop"
  | newindexChain => "'__newindex' chain too long; possible loop"
  | loopNumber what => s!"'for' {what} must be a number"
  | envNotTable type => s!"_ENV is not a table but a {type}"
  | assignDefaultEnv => "cannot assign to the default environment"
  | table fault => fault.message
  | badArgument i f expected got => s!"bad argument #{i} to '{f}' ({expected} expected, got {got})"
  | notIntegral i f => s!"bad argument #{i} to '{f}' (number has no integer representation)"
  | valueExpected i f => s!"bad argument #{i} to '{f}' (value expected)"
  | argumentOf i f reason => s!"bad argument #{i} to '{f}' ({reason})"
  | assertion => "assertion failed!"
  | protectedMetatable => "cannot change a protected metatable"
  | tableOrString => "table or string expected"
  | tostringResult => "'__tostring' must return a string"
  | readerResult => "reader function must return a string"
  | tooManyResults => "too many results to unpack"
  | foreignCoroutineBody => "attempt to create a coroutine from a function of a different script"
  | foreignCoroutine => "attempt to resume a coroutine of a different script"
  | deadCoroutine => "cannot resume dead coroutine"
  | busyCoroutine => "cannot resume non-suspended coroutine"
  | transition old new =>
    s!"invalid coroutine state transition from {old.name} to {new.name}"
  | noField field type => s!"cannot access field {field} of userdata<{type}>"
  | noAssignment field type => s!"cannot assign field {field} of userdata<{type}>"
  | readOnly field type => s!"property '{field}' of userdata<{type}> is read-only"
  | notRegistered type => s!"type '{type}' is not registered"
  | balanceNumber => "balance must be a number"
  | alreadyRunning => "script is already running on this thread"
  | foreignDump => "attempt to dump a function of a different script"
  | noSource i => s!"no source with index {i}"
  | abandoned => "script task ended without producing a result"
  | intrudeNeedsCheck => "intrude needs check_thread_access"
  | hostPanic message => s!"host function panicked: {message}"
  | raised message => message

end LuaMachine
