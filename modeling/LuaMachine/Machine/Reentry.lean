import LuaMachine.Machine.Stack

/-!
# Re-entering the machine

Operators with handlers, native functions and coroutines call back into the machine. What they may
ask of it is a `Reentry`, so that each of them can be defined without knowing how code is run. A
chain of `__call` handlers is followed here, since both a call instruction and a call from the host
begin with it.
-/

namespace LuaMachine

/-- The ways into the machine. -/
structure Reentry where
  /-- call a function and wait for its results -/
  call : Value → List Value → Exec Value
  /-- resume a coroutine; gives what it yields or returns -/
  resume : CoroutineId → List Value → Exec Value
  /-- load and run a text as the host of a script would -/
  enter : ScriptId → String → Exec Value

/-- The longest chain of `__call` handlers that is followed. -/
def maxCallChain : Nat := 16

namespace Exec

/-- The handler for an event in the metatable of a value. -/
def metamethod? (v : Value) (event : String) : Exec (Option Value) := fun w =>
  .ok (w.heap.metamethod? v event) w

/-- The handler of the left operand, or else that of the right one. -/
def handlerOf? (a b : Value) (event : String) : Exec (Option Value) := fun w =>
  .ok ((w.heap.metamethod? a event).or (w.heap.metamethod? b event)) w

/-- Follow `__call` handlers to a function; each object on the way becomes the first argument. -/
def followCall : Nat → Value → List Value → Exec (Value × List Value)
  | 0, _, _ => fail .callChain
  | n + 1, f, args => do
    if f.isCallable then return (f, args)
    match ← metamethod? f "__call" with
    | some handler => followCall n handler (f :: args)
    | none => fail (.call f.typeName)

/-- What a call of a value with some arguments comes to. -/
def resolveCallable (f : Value) (args : List Value) : Exec (Value × List Value) :=
  followCall maxCallChain f.scalar args

end Exec

end LuaMachine
