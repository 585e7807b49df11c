import LuaMachine.Library.Base

/-!
# Functions of the host

Probes are functions by which a script reaches back into its host: to cancel the execution, to call and
load through the host, to ask about the call in progress, and to enter a script while it may be running.

Any other function of an embedding host is external (`External.run`). It may do whatever it likes, but
acts on scripts only through the context of its call, gives single values, and does not hold up the
errors of what it asks for. What it does next may depend on everything the host has been told.
-/

namespace LuaMachine

/-- The thread from which a probe intrudes. -/
def intruderThread : String := "intruder"

namespace Probe

open Exec

/-- Enter a script; an error becomes a text. -/
def attempt (r : Reentry) (target : ScriptId) (code : String) : Exec Value :=
  catchError (r.enter target code) fun e => return .string s!"{e.kind}: {e.display}"

/-- Enter a script from a thread of its own. -/
def intruding (x : Exec α) : Exec α := fun w =>
  let outer := w.thread
  andFinally x (fun w => { w with thread := outer }) { w with thread := intruderThread }

/-- What can be known about the call in progress. -/
def info (caller : Option Span) : Exec Value := do
  let s ← script
  let w ← get
  let co := w.heap.coroutine? s.runningCoroutine
  let place := match caller with
    | some span => Value.string (s.formatLocation span)
    | none => .nil
  return .ofList
    [.boolean (← Library.isyieldable), .boolean (← isCancelled), place,
      .boolean (co.map (·.state) == some .main), .boolean (co.map (·.owner) == some w.active),
      .boolean ((w.heap.getField s.globals "_G").rawEquals (.table s.globals))]

/-- Call a probe that was installed in a script. -/
def run (r : Reentry) (home : ScriptId) (caller : Option Span) (args : Arguments) (p : Probe) :
    Exec Value := do
  match p with
  | .cancel =>
    Exec.cancel (← get).hostToken
    return .void
  | .hostcall => r.call (← args.any 0 p.name) (args.skip 1).values
  | .hostload =>
    let code ← args.string 0 p.name
    loadString code (args.get 2).asTable? (args.get 1).asString?
  | .hostinfo => info caller
  | .hostfail => Exec.fail (.raised (← args.string 0 p.name))
  | .registry =>
    let key ← args.any 0 p.name
    let table := (← script).registry
    let previous := (← heap).getIndex table key
    if args.size > 1 then setIndex table key (args.get 1)
    return previous
  | .reenter => attempt r home (← args.string 0 p.name)
  | .intrude =>
    let code ← args.string 0 p.name
    let target := (← get).scripts[home.index]?
    if target.map (·.options.checkThreadAccess) != some true then Exec.fail .intrudeNeedsCheck
    intruding (attempt r home code)

/-- All probes. -/
def all : List Probe :=
  [.cancel, .hostcall, .hostload, .hostinfo, .hostfail, .registry, .reenter, .intrude]

/-- Install the probes in the global table of the running script. -/
def install : Exec Unit := do
  let home := (← get).active
  Library.addFunctions (← script).globals (all.map (.probe home))

end Probe

open Exec

/-- Carry out an operation on the context of a call. -/
def Operation.run (r : Reentry) (caller : Option Span) : Operation → Exec Value
  | globals => do return .table (← script).globals
  | registry => do return .table (← script).registry
  | running => do return .coroutine (← script).runningCoroutine
  | canYield => do return .boolean (← Library.isyieldable)
  | isCancelled => do return .boolean (← Exec.isCancelled)
  | location => do
    let s ← script
    return (caller.map fun span => .string (s.formatLocation span)).getD .nil
  | call f args => r.call f args
  | load code env name => loadString code env name
  | create f => do return .coroutine (← createCoroutine f)
  | resume co args => r.resume co args
  | print line => do
    Exec.print line
    return .void
  | newTable => Exec.newTable {}
  | get id key => do return (← heap).getIndex id key
  | set id key value => do
    setIndex id key value
    return .void

namespace External

/-- Go on with a function of the host, which is told what each operation gives. -/
def actions (r : Reentry) (caller : Option Span) (name : String) : Nat → Exec Value
  | 0 => throw .exhausted
  | n + 1 => do
    let w ← get
    match w.externals name w.told with
    | .give results => return .ofList (results.map Value.scalar)
    | .raise message => fail (.raised message)
    | .ask op =>
      tell (← op.run r caller)
      actions r caller name n

/-- Call a function of the host. -/
def run (r : Reentry) (caller : Option Span) (name : String) (args : Arguments) : Exec Value := do
  tell (.tuple args.values)
  actions r caller name stepLimit

end External

end LuaMachine
