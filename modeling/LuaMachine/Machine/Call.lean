import LuaMachine.Host.Object
import LuaMachine.Host.Probe

/-!
# Calls

How a function is entered: a script function gets a frame and runs at its header, a native function
runs inside a frame of its own.
-/

namespace LuaMachine

/-- What a native function does. Suspending is not among it: that is a matter of the machine. -/
def Native.run (r : Reentry) (caller : Option Span) (args : Arguments) : Native → Exec Value
  | builtin b => b.run r caller args
  | yield => Exec.fail .yieldAcrossHost
  | resumer co => r.resume co args.values
  | method id m => m.run r id args
  | probe home p => p.run r home caller args
  | echo _ => return .ofList args.values
  | external name => External.run r caller name args

namespace Exec

/-- Refuse one more frame when the limit is reached. -/
def checkDepth : Exec Unit := do
  if (← processor).frames.size ≥ (← script).options.callStackLimit then fail .stackOverflow

/-- Enter a function of the running script. -/
def enterClosure (id : ClosureId) (args : List Value) (returnAddress : Option Nat)
    (callSite : Option Span) : Exec Unit := do
  let w ← get
  match w.heap.closure? id with
  | none => fail .foreignFunction
  | some closure =>
    if closure.owner != w.active then fail .foreignFunction
    checkDepth
    let base := (← processor).values.size
    pushFrame (.script { closure, base, returnAddress, pending := args, callSite })
    goTo closure.entry

/-- Run a native function in a frame of its own. -/
def invoke (r : Reentry) (c : Callback) (args : List Value) (caller : Option Span) :
    Exec Value := do
  checkDepth
  let w ← get
  let depth := w.processor.frames.size
  let base := w.processor.values.size
  let ip := w.processor.ip
  pushFrame (.host c.name base caller)
  let leave (w : World) : World :=
    { w with processor := { w.processor.unwind depth base with ip } }
  andSettle (c.native.run r caller ⟨args⟩) leave leave

end Exec

end LuaMachine
