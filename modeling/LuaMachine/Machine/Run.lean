import LuaMachine.Debug.Pause
import LuaMachine.Machine.Step

/-!
# Running code

The loop that runs instructions, and the ways into it: a call from the host, the resumption of a
coroutine, and the entry of a script. Each of them may come from inside a native function of an
outer run, so they nest; a script limits how deep (`ScriptOptions.maxNestedCalls`).

`Reentry.atDepth` ties the knot: the machine at one depth re-enters the machine at the depth below.
-/

namespace LuaMachine

namespace Exec

/-! ## Errors -/

/-- Complete a runtime error on its way out of an instruction: its place, the call stack, and word to
the debugger. -/
def trace (e : ScriptError) (place : Option Span) : Exec ScriptError := do
  match e with
  | .runtime e =>
    let s ← script
    let e := match place with
      | some span => e.decorate (some span) (s.formatLocation span)
      | none => e
    let p ← processor
    let e := if e.callStack.isEmpty then { e with callStack := s.callStackNames p.frames } else e
    match s.debug.debugger with
    | some front =>
      modifyDebug (·.tell (.error e.display))
      if front.pauseOnError then pause p.ip place
    | none => pure ()
    return .runtime e
  | e => return e

/-- Reserve a level of nesting for a computation. -/
def nested (x : Exec α) : Exec α := do
  let s ← script
  if s.nesting ≥ s.options.maxNestedCalls then fail .stackOverflow
  let id := (← get).active
  let shift (f : Nat → Nat) (w : World) : World :=
    { w with scripts := w.scripts.modify id.index fun s => { s with nesting := f s.nesting } }
  modify (shift (· + 1))
  andFinally x (shift (· - 1))

end Exec

namespace Reentry

open Exec

/-- Run instructions until the function entered at a height of the call stack returns or the
coroutine suspends. -/
def run (r : Reentry) (depth : Nat) : Nat → Exec Exit
  | 0, w => .error .exhausted w
  | fuel + 1, w =>
    let s := w.scripts.getD w.active.index default
    match s.code.instruction? w.processor.ip with
    | none => .error (.error (.ofFault (.invalidAddress w.processor.ip))) w
    | some i =>
      let heard := if s.debug.isAttached then listen i.span w else .ok () w
      match heard with
      | .error stop w => .error stop w
      | .ok _ w => match r.step depth i w with
        | .ok none w => r.run depth fuel w
        | .ok (some exit) w => .ok exit w
        | .error (.error e) w => match trace e i.span w with
          | .ok e w => .error (.error e) w
          | .error stop w => .error stop w
        | .error stop w => .error stop w

/-- Enter a function at a height of the call stack and run it. -/
def enterFunction (r : Reentry) (depth : Nat) (f : Value) (args : List Value) : Exec Exit := do
  let (f, args) ← resolveCallable f args
  match f with
  | .function id =>
    enterClosure id args none none
    r.run depth stepLimit
  | .callback c => match c.native with
    | .yield => return .yielded (.ofList args)
    | _ => return .returned (← invoke r c args none)
  | v => fail (.call v.typeName)

/-- Call a function on the running processor. After an error the stacks are as before. -/
def callFunction (r : Reentry) (f : Value) (args : List Value) : Exec Value := nested do
  let w ← get
  let depth := w.processor.frames.size
  let height := w.processor.values.size
  let ip := w.processor.ip
  let body : Exec Value := do
    match ← r.enterFunction depth f (Value.flatten args) with
    | .returned v => return v
    | .yielded _ => fail .yieldAcrossHost
  andSettle body
    (fun w => { w with processor := { w.processor with ip } })
    (fun w => { w with processor := { w.processor.unwind depth height with ip } })

/-! ## Coroutines -/

/-- Run a coroutine from where it stands: from its start, or from the suspension whose results the
arguments are. -/
def continueBody (r : Reentry) (start : Option Value) (args : List Value) : Exec Exit :=
  match start with
  | some f => r.enterFunction 0 f (Value.flatten args)
  | none => do
    push (.ofList (Value.flatten args))
    r.run 0 stepLimit

/-- Change the state of a coroutine; a change that is not allowed is refused. -/
def transition (id : CoroutineId) (state : CoroutineState) : Exec Unit := do
  match (← heap).coroutine? id with
  | none => fail .deadCoroutine
  | some c =>
    let c ← c.become state
    modifyHeap (·.modifyCoroutine id fun _ => c)

/-- Give a coroutine a body, or take it away. -/
def setBody (id : CoroutineId) (body : Option CoroutineBody) : Exec Unit :=
  modifyHeap (·.modifyCoroutine id fun c => { c with body })

/-- Run the body of a coroutine on its own processor; gives the processor back with the outcome. -/
def runBody (r : Reentry) (id : CoroutineId) (body : CoroutineBody) (args : List Value) :
    Exec (Except ScriptError Exit × Processor) := fun w =>
  let outer := w.processor
  let inside : World := { w with processor := body.processor }
  let back (w : World) : World := { w with processor := outer }
  let started : Exec Exit := do
    modifyScript fun s => { s with running := id :: s.running }
    andFinally (r.continueBody body.function args) fun w =>
      { w with scripts := w.scripts.modify w.active.index fun s => { s with running := s.running.tail } }
  match started inside with
  | .ok exit w => .ok (.ok exit, w.processor) (back w)
  | .error (.error e) w => .ok (.error e, w.processor) (back w)
  | .error stop w => .error stop (back w)

/-- Run the body of a coroutine until it suspends, when it has a body again, or is over. -/
def resumeBody (r : Reentry) (id : CoroutineId) (body : CoroutineBody) (args : List Value) :
    Exec Value := do
  setBody id none
  transition id .running
  let (outcome, p) ← r.runBody id body args
  match outcome with
  | .ok (.yielded v) =>
    transition id .suspended
    setBody id (some { processor := p, function := none })
    return v
  | .ok (.returned v) =>
    transition id .dead
    return v
  | .error e =>
    transition id .dead
    failWith e

/-- Resume a coroutine of the running script. -/
def resumeCoroutine (r : Reentry) (id : CoroutineId) (args : List Value) : Exec Value := do
  let w ← get
  match w.heap.coroutine? id with
  | none => fail .deadCoroutine
  | some c =>
    if c.owner != w.active then fail .foreignCoroutine
    match c.state with
    | .dead => fail .deadCoroutine
    | .main | .running => fail .busyCoroutine
    | .notStarted | .suspended => nested do
      match c.body with
      | none => fail .deadCoroutine
      | some body => r.resumeBody id body args

/-! ## Scripts -/

/-- Take hold of the running script's main processor for the current thread, unless it is held. -/
def acquire : Exec Unit := do
  let s ← script
  let thread := (← get).thread
  match s.owner with
  | none => modifyScript fun s => { s with owner := some thread }
  | some owner =>
    if owner == thread then fail .alreadyRunning
    else if s.options.checkThreadAccess then failWith (.threadAccess owner thread)
    else throw .exhausted

/-- Run a computation on the main processor of the running script and under an execution of its own;
afterwards everything outside is as before. -/
def onMainProcessor (token : Nat) (x : Exec α) : Exec α := fun w =>
  let outer := w.processor
  let outerToken := w.token
  let id := w.active
  let main := (w.scripts.getD id.index default).processor
  andFinally x
    (fun w => { w with
      scripts := w.scripts.modify id.index fun s =>
        { s with processor := w.processor, owner := none
                 counters := s.counters.countExecution }
      processor := outer
      token := outerToken })
    { w with processor := main, token }

/-- Call a function from the host, under an execution that can be cancelled. -/
def callScript (r : Reentry) (token : Nat) (f : Value) (args : List Value) : Exec Value := do
  acquire
  let ended (w : World) : World :=
    { w with scripts := w.scripts.modify w.active.index fun s =>
        { s with debug := s.debug.executionEnded } }
  andSettle (onMainProcessor token (r.callFunction f args)) ended ended

/-- Load and run a text in a script, from wherever control is. -/
def enterScript (r : Reentry) (id : ScriptId) (code : String) : Exec Value := do
  if (← get).scripts.size ≤ id.index then throw (.panic "no such script")
  within id do
    let f ← loadString code none none
    r.callScript (← newToken) f []

/-- The machine at a depth: what is re-entered from there is the machine one level lower. -/
def atDepth : Nat → Reentry
  | 0 =>
    { call := fun _ _ => throw .exhausted
      resume := fun _ _ => throw .exhausted
      enter := fun _ _ => throw .exhausted }
  | n + 1 =>
    { call := fun f args => (atDepth n).callFunction f args
      resume := fun id args => (atDepth n).resumeCoroutine id args
      enter := fun id code => (atDepth n).enterScript id code }

end Reentry

/-- A depth that no nesting of calls reaches, since every script limits its own. -/
def World.reentryDepth (w : World) : Nat :=
  w.scripts.foldl (fun n s => n + s.options.maxNestedCalls + 1) 2

/-- The machine. -/
def Exec.machine : Exec Reentry := do return Reentry.atDepth (← get).reentryDepth

end LuaMachine
