import LuaMachine.Machine.Reentry
import LuaMachine.Library.Arguments

/-!
# The coroutine library

What the functions of the `coroutine` table do, except for the one that suspends: that is a matter
of the machine.
-/

namespace LuaMachine

namespace Exec

/-- Make a coroutine of a function of the running script. -/
def createCoroutine (f : Value) : Exec CoroutineId := do
  let f := f.scalar
  let w ← get
  match f with
  | .function id =>
    if (w.heap.closure? id).map (·.owner) != some w.active then fail .foreignCoroutineBody
  | .callback _ => pure ()
  | v => fail (.badArgument 1 "create" "function" v.typeName)
  let id ← newCoroutine
    { owner := w.active, state := .notStarted
      body := some { processor := { isCoroutine := true }, function := some f } }
  let h ← heap
  let isDead (c : CoroutineId) : Bool := (h.coroutine? c).map (·.state) == some .dead
  modifyScript fun s => { s with coroutines := (s.coroutines.filter (!isDead ·)).push id }
  return id

/-- The state of a coroutine as scripts name it. -/
def statusOf (id : CoroutineId) : Exec String := do
  match (← heap).coroutine? id with
  | some c => match c.state with
    | .running | .main =>
      return if (← script).runningCoroutine == id then "running" else "normal"
    | .notStarted | .suspended => return "suspended"
    | .dead => return "dead"
  | none => return "dead"

/-- Turn the outcome of a computation into results: `true` and its values, or `false` and the
raised value. What a script cannot catch passes through. -/
def protect (x : Exec Value) : Exec Value :=
  catchError (do return .ofList (.boolean true :: (← x).toList)) fun
    | .runtime e => return .ofList [.boolean false, e.value]
    | e => failWith e

end Exec

namespace Library

open Exec

def create (args : Arguments) : Exec Value := do
  return .coroutine (← createCoroutine (← args.any 0 "create"))

def resume (r : Reentry) (args : Arguments) : Exec Value := do
  let id ← args.coroutine "resume"
  protect (r.resume id (args.skip 1).values)

def status (args : Arguments) : Exec Value := do
  return .string (← statusOf (← args.coroutine "status"))

/-- The running coroutine, and whether it is the main one. -/
def running : Exec Value := do
  let id := (← script).runningCoroutine
  let isMain := ((← heap).coroutine? id).map (·.state) == some .main
  return .ofList [.coroutine id, .boolean isMain]

def wrap (args : Arguments) : Exec Value := do
  newCallback (.resumer (← createCoroutine (← args.any 0 "wrap")))

/-- Whether the function that asks may suspend; its own frame does not count. -/
def isyieldable : Exec Bool := do
  let p ← processor
  return p.isCoroutine && p.hostDepth ≤ 1

end Library

end LuaMachine
