import LuaMachine.Machine.Run

/-!
# Scripts from the host's side

What a host does with a script: make it, load code, call functions, attach a debugger. All but the
making act on the running script; `Exec.within` chooses it.
-/

namespace LuaMachine

/-- Where an asynchronous call runs. -/
inductive Lane where
  /-- at once, on the thread that asks -/
  | inline
  /-- on a thread of its own -/
  | worker (name : String)
  /-- nowhere: the call is lost -/
  | drop
deriving DecidableEq, Repr

namespace Script

open Exec

/-- Make a script with the library installed. -/
def create (options : ScriptOptions) : Exec ScriptId := do
  let w ← get
  let id : ScriptId := ⟨w.scripts.size⟩
  let globals : TableId := ⟨w.heap.tables.size⟩
  let _ ← newTable {}
  let registry : TableId := ⟨(← heap).tables.size⟩
  let _ ← newTable {}
  let main ← newCoroutine { owner := id, state := .main, body := none }
  modify fun w => { w with scripts := w.scripts.push { options, globals, registry, main } }
  Library.install globals
  return id

/-! ## Calls -/

/-- Call a function under an execution that can be cancelled. -/
def callWith (token : Nat) (f : Value) (args : List Value) : Exec Value := do
  (← machine).callScript token f args

def call (f : Value) (args : List Value) : Exec Value := do
  callWith (← newToken) f args

/-- Call the function that a global variable holds. -/
def callGlobal (name : String) (args : List Value) : Exec Value := do
  call ((← heap).getField (← script).globals name) args

/-- Load and run a text. -/
def doString (code : String) : Exec Value := do
  call (← loadString code none none) []

/-- Load the content of a file; it is named by its path unless it is given another name. -/
def loadFile (path : String) (content : Except IoError (List UInt8)) (env : Option TableId)
    (name : Option String) : Exec Value := do
  match content with
  | .ok bytes => loadBytes bytes env (name.getD path)
  | .error e => failWith (.io e)

/-- Load and run a file. -/
def doFile (path : String) (content : Except IoError (List UInt8)) : Exec Value := do
  call (← loadFile path content none none) []

/-- Run a computation on a lane. A worker is done before anyone asks for its result. -/
def runOn (lane : Lane) (x : Exec α) : Exec α :=
  match lane with
  | .inline => x
  | .worker name => fun w =>
    let outer := w.thread
    andFinally x (fun w => { w with thread := outer }) { w with thread := name }
  | .drop => fail .abandoned

/-! ## Settings and globals -/

def setOptions (f : ScriptOptions → ScriptOptions) : Exec Unit :=
  modifyScript fun s => { s with options := f s.options }

def switchCounters (on : Bool) : Exec Unit :=
  modifyScript fun s => { s with counters := s.counters.switch on }

def getGlobal (name : String) : Exec Value := do
  return (← heap).getField (← script).globals name

def setGlobal (name : String) (v : Value) : Exec Unit := do
  setField (← script).globals name v

/-- Whether the last call left the main processor clean. -/
def isIdle : Exec Bool := do return (← script).processor.isIdle

/-! ## Debugging -/

def attach (front : Debugger) : Exec Unit :=
  modifyScript fun s =>
    { s with debug := s.debug.attach front s.sources.toList s.code.listing }

def detach : Exec Unit := modifyDebug (·.detach)

/-- Set, clear or turn over the breakpoints nearest to a place of a source; gives the spans that it
is about. -/
def toggleBreakpoint (source line column : Nat) (state : Option Bool) : Exec (List Span) := do
  match (← script).sources[source]? with
  | none => fail (.noSource source)
  | some text =>
    modifyDebug (·.toggle text line column state)
    return DebugState.targets text line column

/-- What the debugger was told since it was last asked. -/
def takeEvents : Exec (List DebugEvent) := do
  let events := (← script).debug.events.toList
  modifyDebug fun d => { d with events := #[] }
  return events

/-- The lines that the running script printed since it was last asked. -/
def takePrinted : Exec (List String) := fun w =>
  let (mine, others) := w.printed.partition (·.1 == w.active)
  .ok (mine.map (·.2)).toList { w with printed := others }

end Script

/-! ## Host types -/

namespace HostType

open Exec

/-- Make a type known to scripts; false when it was known already. -/
def register (t : HostType) : Exec Bool := do
  if (← get).hostTypes.contains t then return false
  modify fun w => { w with hostTypes := w.hostTypes ++ [t] }
  return true

/-- Wrap a host object for scripts; its type has to be known. The store is always one object. -/
def wrap (o : HostObject) : Exec Value := do
  if !(← get).hostTypes.contains o.type then fail (.notRegistered o.type.name)
  match o with
  | .store => return .userdata (← storeObject)
  | o => return .userdata (← newObject o)

end HostType

end LuaMachine
