import LuaMachine.Script.State

/-!
# The state of execution

`World` is all that running scripts can read and change: the heap, the script instances, the
processor that is running, the cancellation flags and what was printed. `Exec` is a computation on
it that may stop: with an error that can be reported, because host code broke down, or because a
bound on the number of steps was reached. What was changed before a stop stays changed.
-/

namespace LuaMachine

/-- Why a computation stops. -/
inductive Stop where
  | error (e : ScriptError)
  /-- host code broke down; calls in progress are left as they are -/
  | panic (message : String)
  /-- the bound on the number of steps was reached -/
  | exhausted
deriving Repr

/-- What the host is told when a computation stops. One that would never end is as good as
cancelled. -/
def Stop.toError : Stop → ScriptError
  | error e => e
  | panic message => .ofFault (.hostPanic message)
  | exhausted => .cancelled

/-- What a function of the host asks of the context of its call. It sleeps by calling `sleep`. -/
inductive Operation where
  | globals | registry | running | canYield | isCancelled | location
  | call (f : Value) (args : List Value)
  | load (code : String) (env : Option TableId) (name : Option String)
  | create (f : Value)
  | resume (coroutine : CoroutineId) (args : List Value)
  | print (line : String)
  | newTable
  | get (table : TableId) (key : Value)
  | set (table : TableId) (key value : Value)

/-- What a function of the host does next. -/
inductive Action where
  | give (results : List Value)
  | raise (message : String)
  | ask (op : Operation)
deriving Inhabited

/-- Everything that running scripts read and change. -/
structure World where
  heap : Heap := {}
  scripts : Array Script := #[]
  /-- the script that is running -/
  active : ScriptId := ⟨0⟩
  /-- the processor that is running -/
  processor : Processor := {}
  /-- which executions have been cancelled -/
  cancelled : Array Bool := #[]
  /-- the number of the execution that is running -/
  token : Nat := 0
  /-- the number of the execution that the host can cancel -/
  hostToken : Nat := 0
  /-- the lines printed so far and the scripts that printed them -/
  printed : Array (ScriptId × String) := #[]
  /-- the host types that objects can be made of -/
  hostTypes : List HostType := []
  /-- the thread that is running -/
  thread : String := "main"
  /-- what the functions of the host do, by their names and all that they have been told so far -/
  externals : String → List Value → Action := fun _ _ => .give []
  /-- what the functions of the host have been told, the latest first -/
  told : List Value := []
deriving Inhabited

/-- A computation on the world. -/
abbrev Exec := EStateM Stop World

namespace Exec

def fail (f : Fault) : Exec α := throw (.error (.ofFault f))

def failWith (e : ScriptError) : Exec α := throw (.error e)

/-- A refused operation stops the computation with the fault it gives. -/
instance : MonadLift (Except Fault) Exec where
  monadLift
    | .ok a => pure a
    | .error f => fail f

/-- Continue after an error with a handler; a breakdown or a reached bound passes through. -/
def catchError (x : Exec α) (handler : ScriptError → Exec α) : Exec α := fun w =>
  match x w with
  | .ok a w => .ok a w
  | .error (.error e) w => handler e w
  | .error s w => .error s w

/-- The outcome of a computation as a value. -/
def observe (x : Exec α) : Exec (Except Stop α) := fun w =>
  match x w with
  | .ok a w => .ok (.ok a) w
  | .error s w => .ok (.error s) w

/-- Do something after a computation that gives a value or an error; a breakdown leaves everything
as it is. -/
def andSettle (x : Exec α) (onValue onError : World → World) : Exec α := fun w =>
  match x w with
  | .ok a w => .ok a (onValue w)
  | .error (.error e) w => .error (.error e) (onError w)
  | .error s w => .error s w

/-- Do something after a computation, however it ends. -/
def andFinally (x : Exec α) (after : World → World) : Exec α := fun w =>
  match x w with
  | .ok a w => .ok a (after w)
  | .error s w => .error s (after w)

/-- Run a computation for another script, and come back to the one that is running. -/
def within (id : ScriptId) (x : Exec α) : Exec α := fun w =>
  let outer := w.active
  andFinally x (fun w => { w with active := outer }) { w with active := id }

/-! ## The heap -/

def heap : Exec Heap := do return (← get).heap

@[inline] def modifyHeap (f : Heap → Heap) : Exec Unit :=
  modify fun w => { w with heap := f w.heap }

def newTable (t : Table) : Exec Value := fun w =>
  .ok (.table ⟨w.heap.tables.size⟩) { w with heap := w.heap.addTable t }

def newCell (v : Value) : Exec CellId := fun w =>
  .ok ⟨w.heap.cells.size⟩ { w with heap := w.heap.addCell v }

def newClosure (c : Closure) : Exec Value := fun w =>
  .ok (.function ⟨w.heap.closures.size⟩) { w with heap := w.heap.addClosure c }

def newCoroutine (c : Coroutine) : Exec CoroutineId := fun w =>
  .ok ⟨w.heap.coroutines.size⟩ { w with heap := w.heap.addCoroutine c }

def newObject (o : HostObject) : Exec ObjectId := fun w =>
  .ok ⟨w.heap.objects.size⟩ { w with heap := w.heap.addObject o }

/-- The object that stands for the shared variables; there is only one. -/
def storeObject : Exec ObjectId := do
  match (← get).heap.objects.findIdx? (· == .store) with
  | some i => return ⟨i⟩
  | none => newObject .store

/-- A new native function value. -/
def newCallback (n : Native) : Exec Value := fun w =>
  .ok (.callback ⟨w.heap.nextCallback, n⟩)
    { w with heap := { w.heap with nextCallback := w.heap.nextCallback + 1 } }

/-- Assign to an index of a table. -/
def setIndex (id : TableId) (key value : Value) : Exec Unit := fun w =>
  match Key.ofValue key with
  | .ok k => .ok () { w with heap := w.heap.modifyTable id fun t => t.put k value.scalar }
  | .error e => .error (.error (.ofFault (.table e))) w

def setField (id : TableId) (key : String) (value : Value) : Exec Unit :=
  modifyHeap (·.setField id key value)

/-! ## The running script and its processor -/

def script : Exec Script := do
  let w ← get
  return w.scripts.getD w.active.index default

@[inline] def modifyScript (f : Script → Script) : Exec Unit :=
  modify fun w => { w with scripts := w.scripts.modify w.active.index f }

@[inline] def modifyProcessor (f : Processor → Processor) : Exec Unit :=
  modify fun w => { w with processor := f w.processor }

def processor : Exec Processor := do return (← get).processor

def isCancelled : Exec Bool := do
  let w ← get
  return w.cancelled.getD w.token false

/-- A new execution; only who knows its number can cancel it. -/
def newToken : Exec Nat := fun w =>
  .ok w.cancelled.size { w with cancelled := w.cancelled.push false }

def cancel (token : Nat) : Exec Unit :=
  modify fun w => { w with cancelled := w.cancelled.setIfInBounds token true }

/-- Stop here if the execution has been cancelled. -/
def safepoint : Exec Unit := fun w =>
  if w.cancelled.getD w.token false then .error (.error .cancelled) w else .ok () w

def print (line : String) : Exec Unit :=
  modify fun w => { w with printed := w.printed.push (w.active, line) }

/-- Tell the functions of the host a value. -/
def tell (v : Value) : Exec Unit := modify fun w => { w with told := v :: w.told }

end Exec

end LuaMachine
