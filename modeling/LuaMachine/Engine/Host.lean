import LuaMachine.Engine.Config
import LuaMachine.Engine.FunctionCache
import LuaMachine.Engine.Pool
import LuaMachine.Engine.Statistics
import LuaMachine.Script.Session

/-!
# The state of an engine

An engine runs code on script instances that it keeps for reuse. `Host` is the state of an engine
together with the world of its scripts, and `Hosting` a computation on both that may stop as one on
scripts may.
-/

namespace LuaMachine

/-- A script instance of an engine. -/
structure Instance where
  script : ScriptId
  /-- the generation of instances that it was made for -/
  generation : Nat
deriving DecidableEq, Repr, Inhabited

/-- The state of an engine. -/
structure Engine where
  config : EngineConfig
  /-- counts how often host types were described -/
  adapters : PerformanceCounters
  /-- the host objects that every instance has as globals -/
  objects : List (String × Value) := []
  functions : FunctionCache := {}
  /-- for an instance and a function, the digest of the text that was defined there -/
  versions : List ((ScriptId × String) × String) := []
  /-- what receives the lines that new instances print -/
  sink : Nat := 0
  pool : Pool Instance
  generation : Nat := 0
  statistics : Statistics := {}
  /-- code to run before every code that is executed -/
  globalScript : Option String
  /-- whether errors are handed to a handler -/
  hasHandler : Bool := false
  /-- the texts of the errors that were handed over -/
  handled : Array String := #[]
deriving Inhabited

namespace Engine

/-- The version of a function that an instance has. -/
def version? (e : Engine) (id : ScriptId) (name : String) : Option String :=
  (e.versions.find? (·.1 == (id, name))).map (·.2)

def eraseVersion (e : Engine) (id : ScriptId) (name : String) : Engine :=
  { e with versions := e.versions.filter (·.1 != (id, name)) }

def setVersion (e : Engine) (id : ScriptId) (name hash : String) : Engine :=
  { e with versions := ((id, name), hash) :: (e.eraseVersion id name).versions }

/-- Make all instances outdated. -/
def outdate (e : Engine) : Engine := { e with generation := e.generation + 1 }

def dropIdle (e : Engine) : Engine := { e with pool := e.pool.clear }

/-- Make all instances outdated, and drop the idle ones. -/
def invalidate (e : Engine) : Engine := e.outdate.dropIdle

/-- Count an error, and hand it to the handler. -/
def report (e : Engine) (err : ScriptError) : Engine :=
  { e with
    statistics := { e.statistics with errors := e.statistics.errors + 1 }
    handled := if e.hasHandler then e.handled.push err.display else e.handled }

theorem version?_setVersion_self (e : Engine) (id : ScriptId) (name hash : String) :
    (e.setVersion id name hash).version? id name = some hash := by
  simp [setVersion, version?]

theorem version?_eraseVersion_self (e : Engine) (id : ScriptId) (name : String) :
    (e.eraseVersion id name).version? id name = none := by
  simp [eraseVersion, version?]

end Engine

/-- An engine and the world of its scripts. -/
structure Host where
  engine : Engine
  world : World
deriving Inhabited

/-- A new engine. It knows the type of the store of shared variables. -/
def Host.create (config : EngineConfig) : Host :=
  let adapters := (({} : PerformanceCounters).switch config.performanceCounters).countAdapters
  { engine :=
      { config, adapters, pool := { maxIdle := config.maxIdle }
        globalScript := config.globalScript }
    world := { hostTypes := [.store] } }

/-- A computation on an engine. -/
abbrev Hosting := EStateM Stop Host

namespace Hosting

def engine : Hosting Engine := do return (← get).engine

def modifyEngine (f : Engine → Engine) : Hosting Unit :=
  modify fun h => { h with engine := f h.engine }

def count (f : Statistics → Statistics) : Hosting Unit :=
  modifyEngine fun e => { e with statistics := f e.statistics }

/-- Do something in the world of the scripts. -/
def inWorld (x : Exec α) : Hosting α := fun h =>
  match x h.world with
  | .ok a w => .ok a { h with world := w }
  | .error s w => .error s { h with world := w }

/-- Do something for a script. -/
def onScript (id : ScriptId) (x : Exec α) : Hosting α := inWorld (Exec.within id x)

/-- Do something in the world of the scripts and forget what it changed. -/
def onTrial (x : Exec α) : Hosting α := fun h =>
  match x h.world with
  | .ok a _ => .ok a h
  | .error s _ => .error s h

/-- The outcome of a computation as a value. -/
def observe (x : Hosting α) : Hosting (Except Stop α) := fun h =>
  match x h with
  | .ok a h => .ok (.ok a) h
  | .error s h => .ok (.error s) h

end Hosting

end LuaMachine
