import LuaMachine.Code.Segment
import LuaMachine.Debug.Breakpoints
import LuaMachine.Machine.Error

/-!
# Scripts

A script instance: its code, its sources, its global table and everything else that outlives a call.
-/

namespace LuaMachine

/-- The settings of a script. -/
structure ScriptOptions where
  /-- refuse to be entered from a second thread -/
  checkThreadAccess : Bool := true
  /-- name places in errors by line only -/
  classicLocations : Bool := false
  callStackLimit : Nat := 16384
  maxNestedCalls : Nat := 40
  /-- what receives the lines that the script prints; zero stands for the usual output -/
  sink : Nat := 0
deriving DecidableEq, Repr, Inhabited

/-- How often a script has compiled, has been called from the host, and has had host types described
to it; nothing is counted while the counters are off. -/
structure PerformanceCounters where
  enabled : Bool := false
  compilation : Nat := 0
  execution : Nat := 0
  adapters : Nat := 0
deriving DecidableEq, Repr, Inhabited

namespace PerformanceCounters

/-- Turn the counters on, or off and back to zero. -/
def switch (c : PerformanceCounters) (on : Bool) : PerformanceCounters :=
  if on then { c with enabled := true } else {}

def countCompilation (c : PerformanceCounters) : PerformanceCounters :=
  if c.enabled then { c with compilation := c.compilation + 1 } else c

def countExecution (c : PerformanceCounters) : PerformanceCounters :=
  if c.enabled then { c with execution := c.execution + 1 } else c

def countAdapters (c : PerformanceCounters) : PerformanceCounters :=
  if c.enabled then { c with adapters := c.adapters + 1 } else c

/-- The counters by name; none while they are off. -/
def rows (c : PerformanceCounters) : List (String × Option Nat) :=
  let shown (n : Nat) := if c.enabled then some n else none
  [("Compilation", shown c.compilation), ("Execution", shown c.execution),
    ("AdaptersCompilation", shown c.adapters)]

/-- The lines of the performance log. Elapsed time is not measured. -/
def log (c : PerformanceCounters) : List String :=
  c.rows.filterMap fun (name, count) => count.map fun n => s!"{name} : {n} times / 0 ms"

end PerformanceCounters

/-- A script instance. -/
structure Script where
  options : ScriptOptions
  globals : TableId
  registry : TableId
  /-- the coroutine that stands for the main processor -/
  main : CoroutineId
  code : Segment := {}
  sources : Array SourceText := #[]
  /-- the running coroutines, innermost first -/
  running : List CoroutineId := []
  /-- how many calls and resumptions that came through the host are in progress -/
  nesting : Nat := 0
  /-- the coroutines that were alive when the latest one was made, and that one -/
  coroutines : Array CoroutineId := #[]
  debug : DebugState := {}
  counters : PerformanceCounters := {}
  /-- the main processor while no call is in progress -/
  processor : Processor := {}
  /-- the thread that is inside the script -/
  owner : Option String := none
deriving Inhabited

namespace Script

def sourceName (s : Script) (origin : Origin) : String :=
  match origin with
  | .source i => match s.sources[i]? with
    | some t => t.name
    | none => "?"
  | .host => "?"

/-- A span as the error messages of this script name it. -/
def formatLocation (s : Script) (span : Span) : String :=
  span.format (s.sourceName span.origin) s.options.classicLocations

/-- The coroutine that is running. -/
def runningCoroutine (s : Script) : CoroutineId := s.running.headD s.main

/-- The name of a frame's function in traces. -/
def frameName (s : Script) : Frame → String
  | .host name _ _ => name
  | .script f => match s.code.instruction? f.closure.entry with
    | some ⟨.header name _ _, _⟩ => name
    | _ => "?"

/-- The names of the functions that are running, innermost first. -/
def callStackNames (s : Script) (frames : Array Frame) : List String :=
  (frames.toList.map s.frameName).reverse

end Script

end LuaMachine
