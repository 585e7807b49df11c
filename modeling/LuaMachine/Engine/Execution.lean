import LuaMachine.Engine.Lease

/-!
# Executing code on an engine

`execute` runs a source text, `executeFunction` a function that was loaded by name. Both lease an
instance for the time of the execution.
-/

namespace LuaMachine.Engine

open Hosting

def isBlank (code : String) : Bool := code.toList.all Text.isBlank

/-- Check that a text can be loaded, on a script of its own that is dropped. -/
def checkLoad (code name : String) : Hosting Unit :=
  onTrial do
    let id ← Script.create {}
    let _ ← Exec.within id (Exec.loadString code none name)

/-! ## Source texts -/

/-- Run the global script if there is one. Its errors are reported and do not stop what follows,
unless the execution was cancelled. -/
def runGlobalScript (id : ScriptId) (token : Nat) : Hosting Unit := do
  match (← engine).globalScript with
  | none => return
  | some code =>
    if isBlank code then return
    let outcome ← observe <| onScript id do
      Script.callWith token (← Exec.loadString code none "global script") []
    match outcome with
    | .ok _ => return
    | .error (.error .cancelled) => throw (.error .cancelled)
    | .error (.error e) => modifyEngine (·.report e)
    | .error s => throw s

/-- Run a text; a blank one gives `nil` and is not counted. -/
def execute (token : Nat) (code : String) : Hosting Value := do
  if isBlank code then return .nil
  counted <| withInstance fun i _ => do
    runGlobalScript i.script token
    onScript i.script do Script.callWith token (← Exec.loadString code none none) []

/-- Check that a text can be loaded, without running it. -/
def validate (code : String) : Hosting Unit := do
  if !isBlank code then checkLoad code "validate"

/-! ## Functions -/

/-- Replace a function in an idle instance. An instance where its definition fails is left without
it. -/
def redefine (f : CachedFunction) (id : ScriptId) (chunk : Value) : Hosting Unit := do
  onScript id (Script.setGlobal f.name .nil)
  match ← observe (onScript id (Script.call chunk [])) with
  | .ok _ =>
    modifyEngine (·.setVersion id f.name f.hash)
    count fun s => { s with compiled := s.compiled + 1 }
  | .error (.error _) => modifyEngine (·.eraseVersion id f.name)
  | .error s => throw s

/-- Load a function body under a name, also in the idle instances. The body that is there already is
not loaded again. -/
def loadFunction (name code : String) : Hosting Unit := do
  let f := CachedFunction.ofSource name code
  let e ← engine
  if e.functions.hashOf? name == some f.hash then return
  let idle := e.pool.idle.map (·.script)
  if idle.isEmpty then checkLoad f.definition name
  else
    let chunks ← idle.mapM fun id => onScript id (Exec.loadString f.definition none name)
    (idle.zip chunks).forM fun (id, chunk) => redefine f id chunk
  modifyEngine fun e => { e with functions := e.functions.insert f }

/-- Note that a loaded function runs; it comes from the cache if this version ran before and the
instance had it. -/
def noteRun (f : CachedFunction) (wasThere : Bool) : Hosting Unit := do
  let ranBefore := (← engine).functions.hasExecuted f.name f.hash
  modifyEngine fun e => { e with functions := e.functions.markExecuted f.name f.hash }
  if ranBefore && wasThere then count fun s => { s with fromCache := s.fromCache + 1 }

/-- Run a loaded function, or a global function of that name. -/
def executeFunction (token : Nat) (name : String) (args : List Value) : Hosting Value :=
  counted do
    let cached := (← engine).functions.get? name
    withInstance fun i isNew => do
      let version := (← engine).version? i.script name
      let stale := cached.any fun f => version != some f.hash
      if stale then cached.forM (define i.script)
      let f ← onScript i.script (Script.getGlobal name)
      if !f.isCallable then throw (.error (.functionNotFound name))
      cached.forM fun f => noteRun f (!isNew && !stale)
      onScript i.script (Script.callWith token f args)

/-! ## Host types and settings -/

/-- Make a host object a global of new instances. A name that is taken keeps its object. -/
def bindObject (name : String) (object : HostObject) : Hosting Unit := do
  if (← engine).objects.any (·.1 == name) then return
  modifyEngine fun e => { e with adapters := e.adapters.countAdapters }
  let _ ← inWorld (HostType.register object.type)
  let value ← inWorld (HostType.wrap object)
  modifyEngine fun e => { e with objects := e.objects ++ [(name, value)] }

/-- Give every instance a host object as a global. -/
def register (name : String) (object : HostObject) : Hosting Unit := do
  let outcome ← observe (bindObject name object)
  modifyEngine (·.invalidate)
  match outcome with
  | .ok () => return
  | .error s => throw s

def forgetObjects : Hosting Unit := modifyEngine fun e => { e with objects := [] }

def forgetTypes : Hosting Unit := inWorld (modify fun w => { w with hostTypes := [] })

/-- Make the type of the store of shared variables known. -/
def knowStore : Hosting Unit := do
  let _ ← inWorld (HostType.register .store)

/-- Forget all host objects and types but the store. -/
def clearTypes : Hosting Unit := do
  forgetObjects
  forgetTypes
  knowStore
  modifyEngine (·.invalidate)

def replaceStore : Hosting Unit := inWorld (Exec.modifyHeap (·.replaceStore))

/-- Start over with new shared variables and without instances. -/
def reset : Hosting Unit := do
  replaceStore
  modifyEngine (·.invalidate)

def switchSink (sink : Nat) : Hosting Unit := modifyEngine fun e => { e with sink }

/-- Let the lines that new instances print go elsewhere. -/
def setPrintSink (sink : Nat) : Hosting Unit := do
  switchSink sink
  modifyEngine (·.invalidate)

def setGlobalScript (code : Option String) : Hosting Unit :=
  modifyEngine fun e => { e with globalScript := code }

def setHandler (on : Bool) : Hosting Unit := modifyEngine fun e => { e with hasHandler := on }

/-- What the handler was given since it was last asked. -/
def takeHandled : Hosting (List String) := do
  let texts := (← engine).handled.toList
  modifyEngine fun e => { e with handled := #[] }
  return texts

/-- The lines that scripts printed since they were last asked. -/
def takePrinted : Hosting (List String) := fun h =>
  .ok (h.world.printed.map (·.2)).toList { h with world := { h.world with printed := #[] } }

end LuaMachine.Engine
