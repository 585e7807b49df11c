import LuaMachine.Machine.Variables

/-!
# Pausing for the debugger

Before each instruction an attached debugger may stop the script. While it is stopped its state is
shown in panels, and the debugger acts until one of its actions lets the script go on.
-/

namespace LuaMachine

/-- The next action of a front end. -/
def Debugger.next (d : Debugger) : DebuggerAction × Debugger :=
  match d.actions with
  | a :: rest => (a, { d with actions := rest })
  | [] => (d.fallback, d)

namespace World

/-! ## Panels -/

/-- How many values of the stack are shown. -/
def shownValues : Nat := 32

/-- The frames, innermost first; each is shown at the place where it has got to. -/
def frameRows (s : Script) : Option Span → List Frame → List WatchItem
  | _, [] => []
  | place, f :: rest =>
    { address := match f with
        | .script f => some f.closure.entry
        | .host .. => none
      base := some f.base
      returnAddress := f.returnAddress
      name := some (s.frameName f)
      location := place } :: frameRows s f.callSite rest

def watchRow (w : World) (name : String) : WatchItem :=
  let symbol := w.symbolNamed name
  match w.peekSymbol symbol with
  | .ok v => { name := some name, value := some v, symbol := some symbol }
  | .error e =>
    { name := some name, value := some (.string e.message), symbol := some symbol, isError := true }

/-- The values on the stack, topmost first. -/
def valueRows (w : World) : List WatchItem :=
  ((w.processor.values.toList.zipIdx.reverse).take shownValues).map fun (v, i) =>
    { address := some i, value := some v }

/-- The declared variables of the innermost script frame. -/
def localRows (w : World) : List WatchItem :=
  match w.processor.scriptFrame? with
  | none => []
  | some f => f.symbols.zipIdx.filterMap fun (name, slot) =>
    match f.locals[slot]? with
    | some (some cell) => some
      { address := some slot, name := some name, value := some (w.heap.cell cell)
        symbol := some (.local name slot) }
    | _ => none

def threadRows (w : World) (s : Script) : List WatchItem :=
  s.coroutines.toList.map fun id =>
    { name := (w.heap.coroutine? id).map (·.state.name), value := some (.coroutine id) }

/-- The rows of a panel. -/
def panelRows (w : World) (s : Script) (watches : List String) (place : Option Span) :
    Panel → List WatchItem
  | .callStack => frameRows s place w.processor.frames.toList.reverse
  | .watches => watches.map w.watchRow
  | .valueStack => w.valueRows
  | .locals => w.localRows
  | .threads => w.threadRows s

end World

namespace Exec

def modifyDebug (f : DebugState → DebugState) : Exec Unit :=
  modifyScript fun s => { s with debug := f s.debug }

/-- Show the state of a stopped script; `hard` also lists the breakpoints. -/
def showPanels (place : Option Span) (hard : Bool) : Exec Unit := do
  let s ← script
  match s.debug.debugger with
  | none => return
  | some front =>
    let w ← get
    for panel in Panel.all do
      if front.panels.contains panel then
        let rows := w.panelRows s front.watches place panel
        modifyDebug (·.tell (.update panel rows w.heap))
    if hard then modifyDebug fun d => d.tell (.breakpoints d.sortedBreakpoints)

/-- Set, clear or turn over breakpoints at the place of an action. -/
def placeBreakpoints (a : DebuggerAction) (state : Option Bool) : Exec Unit :=
  modifyScript fun s => match s.sources[a.source]? with
    | some source => { s with debug := s.debug.toggle source a.line a.column state }
    | none => s

/-- Carry out an action that does not let the script go on. -/
def attend (a : DebuggerAction) (place : Option Span) : Exec Unit := do
  match a.kind with
  | .toggleBreakpoint =>
    placeBreakpoints a none
    showPanels place true
  | .setBreakpoint =>
    placeBreakpoints a (some true)
    showPanels place true
  | .clearBreakpoint =>
    placeBreakpoints a (some false)
    showPanels place true
  | .resetBreakpoints =>
    modifyScript fun s => match s.sources[a.source]? with
      | some source => { s with debug := s.debug.reset source a.lines }
      | none => s
    showPanels place true
  | .refresh => showPanels place false
  | .hardRefresh => showPanels place true
  | _ => return

/-- Take actions until one lets the script go on. -/
def takeActions (ip : Nat) (place : Option Span) : Nat → Exec Unit
  | 0 => throw .exhausted
  | fuel + 1 => do
    match (← script).debug.debugger with
    | none => return
    | some front =>
      let (a, front) := front.next
      modifyDebug fun d => { d with debugger := some front }.tell (.action ip place a.kind)
      let depth := (← processor).frames.size
      match (← script).debug.resume? a.kind ip depth place with
      | some d => modifyDebug fun _ => d
      | none => do
        attend a place
        takeActions ip place fuel

/-- Stop the script at an instruction. When the planned actions and the last one do not let it go
on, nothing ever will. -/
def pause (ip : Nat) (place : Option Span) : Exec Unit := do
  showPanels place false
  let planned := match (← script).debug.debugger with
    | some front => front.actions.length
    | none => 0
  takeActions ip place (planned + 1)

/-- Let an attached debugger decide whether the script goes on. -/
def listen (place : Option Span) : Exec Unit := do
  let d := (← script).debug
  match d.debugger with
  | none => return
  | some front =>
    let asked := front.asked + 1
    let p ← processor
    let (goesOn, d) := { d with debugger := some { front with asked } }.arrive p.ip p.frames.size
      place (front.pauseAt.contains asked)
    modifyDebug fun _ => d
    if !goesOn then pause p.ip place

end Exec

end LuaMachine
