import LuaMachine.Engine.Host

/-!
# Leasing script instances

An execution leases an instance and gives it back. `lease` takes an idle instance or makes one with
all host objects and functions in it; `release` puts it back unless it is unfit or outdated;
`discard` drops an instance that broke down.
-/

namespace LuaMachine

/-- The name under which scripts see the store of shared variables. -/
def storeName : String := "global"

namespace Engine

open Hosting

/-- Define a function in an instance. -/
def define (id : ScriptId) (f : CachedFunction) : Hosting Unit := do
  let chunk ← onScript id (Exec.loadString f.definition none f.name)
  onScript id (Script.setGlobal f.name .nil)
  let _ ← onScript id (Script.call chunk [])
  modifyEngine (·.setVersion id f.name f.hash)
  count fun s => { s with compiled := s.compiled + 1 }

/-- Make an instance that has host objects and the shared variables, and no functions yet. -/
def setUp (config : EngineConfig) (sink : Nat) (objects : List (String × Value)) :
    Hosting ScriptId := do
  let id ← inWorld (Script.create { config.scriptOptions with sink })
  onScript id do
    Script.switchCounters config.performanceCounters
    objects.forM fun (name, object) => Script.setGlobal name object
    Script.setGlobal storeName (← HostType.wrap .store)
  return id

/-- Make an instance. -/
def newInstance : Hosting Instance := do
  let e ← engine
  let id ← setUp e.config e.sink e.objects
  e.functions.functions.forM (define id)
  count fun s => { s with created := s.created + 1 }
  return { script := id, generation := e.generation }

/-- The first instance of the current generation among idle ones, and the idle ones after it. -/
def firstCurrent (generation : Nat) : List Instance → Option Instance × List Instance
  | [] => (none, [])
  | i :: rest => if i.generation == generation then (some i, rest) else firstCurrent generation rest

/-- Lease an instance; tells whether it is new. Outdated idle instances are dropped on the way. -/
def lease : Hosting (Instance × Bool) := do
  let e ← engine
  let (found, rest) := firstCurrent e.generation e.pool.items
  modifyEngine fun e => { e with pool := { e.pool with items := rest } }
  match found with
  | some i => return (i, false)
  | none => return (← newInstance, true)

/-- Drop an instance that cannot be used again. -/
def discard (_ : Instance) : Hosting Unit :=
  count fun s => { s with discarded := s.discarded + 1 }

/-- Give an instance back. It is dropped if a call is still in progress in it, if it is outdated, or
if there are enough idle ones. -/
def release (i : Instance) : Hosting Unit := do
  if !(← onScript i.script Script.isIdle) then discard i
  else modifyEngine fun e =>
    if i.generation != e.generation then e
    else { e with pool := (e.pool.put? i).getD e.pool }

/-- Run a computation on a leased instance, which is told whether it is new. A breakdown of host
code becomes an error. -/
def withInstance (x : Instance → Bool → Hosting α) : Hosting α := do
  let (i, isNew) ← lease
  match ← observe (x i isNew) with
  | .ok a =>
    release i
    return a
  | .error (.panic message) =>
    discard i
    throw (.error (.ofFault (.hostPanic message)))
  | .error s =>
    release i
    throw s

/-- Count an execution, and report the error that it ends with. A breakdown that no lease made an error
is not reported. -/
def counted (x : Hosting α) : Hosting α := do
  count (·.start)
  match ← observe x with
  | .ok a =>
    count (·.finish)
    return a
  | .error (.error e) =>
    modifyEngine (·.report e)
    count (·.finish)
    throw (.error e)
  | .error s =>
    count (·.finish)
    throw s

end Engine

end LuaMachine
