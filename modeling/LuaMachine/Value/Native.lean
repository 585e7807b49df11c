import LuaMachine.Value.Identity

/-!
# Native functions

The functions that the host gives to scripts, as data: what each of them does is said where it is
run. A `Callback` is one native function value; two values of the same function are different
callbacks, told apart by their `identity`.
-/

namespace LuaMachine

/-- The functions of the base library and of the `coroutine` table. -/
inductive Builtin where
  | print | typeOf | tostring | tonumber | pairs | ipairs | ipairsStep | next | select | error
  | assert | pcall | rawget | rawset | rawequal | rawlen | setmetatable | getmetatable | unpack
  | load | sleep
  | create | resume | status | running | wrap | isyieldable
deriving DecidableEq, Hashable, Repr

/-- The name a function has in stack traces and in its text. -/
def Builtin.name : Builtin → String
  | print => "print"
  | typeOf => "type"
  | tostring => "tostring"
  | tonumber => "tonumber"
  | pairs => "pairs"
  | ipairs => "ipairs"
  | ipairsStep => "ipairs_iterator"
  | next => "next"
  | select => "select"
  | error => "error"
  | assert => "assert"
  | pcall => "pcall"
  | rawget => "rawget"
  | rawset => "rawset"
  | rawequal => "rawequal"
  | rawlen => "rawlen"
  | setmetatable => "setmetatable"
  | getmetatable => "getmetatable"
  | unpack => "unpack"
  | load => "load"
  | sleep => "sleep"
  | create => "create"
  | resume => "resume"
  | status => "status"
  | running => "running"
  | wrap => "wrap"
  | isyieldable => "isyieldable"

/-- The methods of the host objects. -/
inductive Method where
  | deposit
  | record | echo | apply | fail | explode
deriving DecidableEq, Hashable, Repr

def Method.name : Method → String
  | deposit => "deposit"
  | record => "record"
  | echo => "echo"
  | apply => "apply"
  | fail => "fail"
  | explode => "explode"

/-- The functions by which an embedding host lets a script reach back into it. -/
inductive Probe where
  | cancel | hostcall | hostload | hostinfo | hostfail | registry | reenter | intrude
deriving DecidableEq, Hashable, Repr

def Probe.name : Probe → String
  | cancel => "cancel"
  | hostcall => "hostcall"
  | hostload => "hostload"
  | hostinfo => "hostinfo"
  | hostfail => "hostfail"
  | registry => "registry"
  | reenter => "reenter"
  | intrude => "intrude"

/-- What a native function does when it is called. -/
inductive Native where
  /-- a library function -/
  | builtin (b : Builtin)
  /-- suspend the running coroutine and hand the arguments to its resumer -/
  | yield
  /-- resume one coroutine -/
  | resumer (coroutine : CoroutineId)
  /-- a method bound to its object -/
  | method (object : ObjectId) (m : Method)
  /-- a probe of the script it was installed in -/
  | probe (script : ScriptId) (p : Probe)
  /-- give the arguments back -/
  | echo (name : String)
  /-- a function of the embedding host, by its name -/
  | external (name : String)
deriving DecidableEq, Hashable, Repr

def Native.name : Native → String
  | builtin b => b.name
  | yield => "yield"
  | resumer _ => "wrap"
  | method _ m => m.name
  | probe _ p => p.name
  | echo name => name
  | external name => name

/-- A native function value. -/
structure Callback where
  identity : Nat
  native : Native
deriving DecidableEq, Hashable, Repr

def Callback.name (c : Callback) : String := c.native.name

end LuaMachine
