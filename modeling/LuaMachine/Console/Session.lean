import LuaMachine.Console.CommandLine
import LuaMachine.Engine.Execution

/-!
# Console sessions

What the program works with: an engine for code that is typed in, a script for files, and the lines
that it shows. Files are run by a script of their own, so that chunks keep the names of their files.
-/

namespace LuaMachine

/-- What the program can fail with. -/
inductive ConsoleError where
  | script (e : ScriptError)
  /-- a file could not be read or written -/
  | file (path : String) (e : IoError)
  /-- the configuration could not be read -/
  | configFile (path : String) (e : IoError)
  /-- the configuration breaks a rule -/
  | config
  /-- a dump was asked for without a script -/
  | nothingToDump
deriving Repr

def ConsoleError.message : ConsoleError → String
  | script e => e.display
  | file path e => s!"{path}: {e.message}"
  | configFile path e => s!"failed to read config {path}: {e.message}"
  | config => "invalid config: "
  | nothingToDump => "--dump needs a script file"

/-- The state of a session. -/
structure Console where
  host : Host
  /-- the script that runs files -/
  runner : ScriptId
  /-- the lines shown so far -/
  output : Array String := #[]
  /-- the lines of complaint so far -/
  complaints : Array String := #[]
  /-- the lines of a statement that is not complete -/
  pending : String := ""
deriving Inhabited

/-- A computation of a session. -/
abbrev Session := EStateM ConsoleError Console

namespace Console

/-- A new session. -/
def create (config : EngineConfig) : Console :=
  let host := Host.create config
  let make : Exec ScriptId := do
    let id ← Script.create config.scriptOptions
    Exec.within id (Script.switchCounters config.performanceCounters)
    return id
  match make host.world with
  | .ok runner world => { host := { host with world }, runner }
  | .error _ world => { host := { host with world }, runner := ⟨0⟩ }

/-- The engine's settings for a command line: those of the configuration file, if one is named,
and the switches of the command line on top. -/
def configure (c : CommandLine) (read : String → Except IoError (List UInt8)) :
    Except ConsoleError EngineConfig := do
  let base ← match c.config with
    | none => pure {}
    | some path => match read path with
      | .error e => throw (.configFile path e)
      | .ok bytes => match Text.Utf8.decode? bytes with
        | none => throw (.configFile path .invalidData)
        | some text => match EngineConfig.ofText? text with
          | none => throw .config
          | some config => pure config
  return { base with
    classicLocations := base.classicLocations || c.classicErrors
    performanceCounters := base.performanceCounters || c.perf }

end Console

namespace Session

def showLine (line : String) : Session Unit :=
  modify fun c => { c with output := c.output.push line }

def complain (line : String) : Session Unit :=
  modify fun c => { c with complaints := c.complaints.push line }

/-- Do something on the engine; what scripts print is shown. -/
def hosting (x : Hosting α) : Session α := fun c =>
  let settle (h : Host) : Console :=
    { c with
      host := { h with world := { h.world with printed := #[] } }
      output := c.output ++ h.world.printed.map (·.2) }
  match x c.host with
  | .ok a h => .ok a (settle h)
  | .error s h => .error (.script s.toError) (settle h)

/-- Do something for the script that runs files. -/
def running (x : Exec α) : Session α := do
  hosting (Hosting.onScript (← get).runner x)

/-- The outcome of a computation as a value. -/
def observe (x : Session α) : Session (Except ConsoleError α) := fun c =>
  match x c with
  | .ok a c => .ok (.ok a) c
  | .error e c => .ok (.error e) c

/-- Load a file. -/
def load (path : String) (content : Except IoError (List UInt8)) : Session Value := do
  match ← observe (running (Script.loadFile path content none none)) with
  | .ok f => return f
  | .error (.script (.io e)) => throw (.file path e)
  | .error e => throw e

/-- Run a file with arguments; gives the values that it returns. -/
def runFile (path : String) (content : Except IoError (List UInt8)) (args : List String) :
    Session (List Value) := do
  let f ← load path content
  return (← running (Script.call f (args.map Value.string))).toList

/-- The dump of a file, as bytes or as the bytes of a text. -/
def dumpFile (path : String) (content : Except IoError (List UInt8)) (base64 : Bool) :
    Session (List UInt8) := do
  let f ← load path content
  if base64 then return Text.Utf8.encode (← running (Exec.dumpText f))
  else running (Exec.dump f)

/-- Evaluate code on the engine. -/
def eval (code : String) : Session Value :=
  hosting do Engine.execute (← Hosting.inWorld Exec.newToken) code

def heap : Session Heap := do return (← get).host.world.heap

/-- The engine's statistics as a text. -/
def statistics : Session String := do return (← get).host.engine.statistics.toJson

/-- The performance log of the script that runs files. -/
def performanceLog : Session (List String) := do
  return (← running Exec.script).counters.log

end Session

end LuaMachine
