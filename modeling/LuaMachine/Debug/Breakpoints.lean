import LuaMachine.Debug.Front
import LuaMachine.Source.Text

/-!
# Breakpoints and stepping

The state that a script keeps for its debugger: the breakpoints, the action that is being carried
out and where it began. Breakpoints are spans of sources; a place that no span includes takes the
nearest one.
-/

namespace LuaMachine

/-- The debugger of a script and what it is doing. -/
structure DebugState where
  debugger : Option Debugger := none
  /-- the breakpoints, each once -/
  breakpoints : List Span := []
  action : ActionKind := .none
  /-- the address where a step over one instruction ends -/
  target : Option Nat := none
  /-- the height of the call stack when the step began -/
  depthAtStep : Nat := 0
  /-- the span that was reached last -/
  last : Option Span := none
  /-- what the front end was told and has not reported yet -/
  events : Array DebugEvent := #[]
deriving Inhabited

namespace DebugState

def isAttached (d : DebugState) : Bool := d.debugger.isSome

def lineBased (d : DebugState) : Bool :=
  match d.debugger with
  | some f => f.caps.lineBreakpoints
  | none => false

def tell (d : DebugState) (e : DebugEvent) : DebugState := { d with events := d.events.push e }

/-- Tell an attached front end that a source was loaded. -/
def sourceLoaded (d : DebugState) (s : SourceText) (listing : List String) : DebugState :=
  match d.debugger with
  | none => d
  | some f =>
    let d := if f.caps.sourceCode then d.tell (.source s.id s.name s.spans.length) else d
    if f.caps.byteCode then d.tell (.byteCode listing) else d

/-- Attach a front end and show it what is loaded. -/
def attach (d : DebugState) (f : Debugger) (sources : List SourceText) (listing : List String) :
    DebugState :=
  let d := { d with debugger := some f, action := .none, target := none, last := none }
  let d := if f.caps.sourceCode then
      sources.foldl (fun d s => d.tell (.source s.id s.name s.spans.length)) d
    else d
  if f.caps.byteCode then d.tell (.byteCode listing) else d

def detach (d : DebugState) : DebugState :=
  { d with debugger := none, action := .none, target := none, last := none }

/-- Tell an attached front end that a call from the host is over. -/
def executionEnded (d : DebugState) : DebugState :=
  if d.isAttached then d.tell .ended else d

/-! ## Breakpoints -/

/-- The order in which breakpoints are listed: by source and place. -/
def before (a b : Span) : Bool :=
  let key (s : Span) : List Nat :=
    let source := match s.origin with
      | .source i => i
      | .host => 0
    [source, s.fromLine, s.fromColumn, s.toLine, s.toColumn]
  !(key b).lex (key a) Nat.blt

def sortedBreakpoints (d : DebugState) : List Span := d.breakpoints.mergeSort before

/-- The first of the spans that are nearest to a place of a source. -/
def nearest? (source line column : Nat) (spans : List Span) : Option Span :=
  let closer (best : Option (Nat × Span)) (s : Span) : Option (Nat × Span) :=
    match s.distance? source line column, best with
    | some n, some (m, t) => if n < m then some (n, s) else some (m, t)
    | some n, none => some (n, s)
    | none, best => best
  (spans.foldl closer none).map (·.2)

/-- The spans that a breakpoint at a place is about: all that include it, or else the nearest. -/
def targets (s : SourceText) (line column : Nat) : List Span :=
  match s.breakable.filter (·.includes s.id line column) with
  | [] => (nearest? s.id line column s.breakable).toList
  | hits => hits

/-- Set or clear one breakpoint, or turn it over when no state is given. -/
def place (breakpoints : List Span) (state : Option Bool) (s : Span) : List Span :=
  let enable := state.getD (!breakpoints.contains s)
  if enable then (if breakpoints.contains s then breakpoints else breakpoints ++ [s])
  else breakpoints.filter (· != s)

/-- Set, clear or turn over the breakpoints at a place. -/
def toggle (d : DebugState) (s : SourceText) (line column : Nat) (state : Option Bool) :
    DebugState :=
  { d with breakpoints := (targets s line column).foldl (place · state ·) d.breakpoints }

/-- Replace the breakpoints of a source by those on given lines. -/
def reset (d : DebugState) (s : SourceText) (lines : List Nat) : DebugState :=
  let kept := d.breakpoints.filter (·.origin != .source s.id)
  let wanted := s.breakable.filter (lines.contains ·.fromLine)
  { d with breakpoints := wanted.foldl (place · (some true) ·) kept }

/-! ## Stepping -/

/-- Whether a span is another one than was reached last. -/
def movedTo (d : DebugState) (s : Span) : Bool :=
  match d.last with
  | none => true
  | some last =>
    if d.lineBased then last.origin != s.origin || last.fromLine != s.fromLine else last != s

/-- Whether a breakpoint stands at a span. -/
def isBreakpoint (d : DebugState) (s : Span) : Bool :=
  if d.lineBased then
    d.breakpoints.any fun b => b.origin == s.origin && b.fromLine == s.fromLine
  else d.breakpoints.contains s

/-- Decide whether execution goes on at an instruction, at a height of the call stack; `requested`
says that the front end asked for a pause. -/
def arrive (d : DebugState) (ip depth : Nat) (span : Option Span) (requested : Bool) :
    Bool × DebugState :=
  let stop := span.filter (·.isStepStop)
  let hit := match stop with
    | some s => d.movedTo s && d.isBreakpoint s
    | none => false
  let d := if requested || hit then { d with action := .none } else d
  let same := match stop with
    | none => true
    | some s => !d.movedTo s
  match d.action with
  | .run => (true, if stop.isSome then { d with last := stop } else d)
  | .byteCodeStepOver => (d.target != some ip, d)
  | .stepOut | .byteCodeStepOut => (depth ≥ d.depthAtStep, d)
  | .stepIn => (depth ≥ d.depthAtStep && same, d)
  | .stepOver => (same || depth > d.depthAtStep, d)
  | _ => (false, d)

/-- Carry out an action that lets a paused script go on; `none` when the action does not. -/
def resume? (d : DebugState) (kind : ActionKind) (ip depth : Nat) (span : Option Span) :
    Option DebugState :=
  match kind with
  | .stepIn | .stepOver | .stepOut | .byteCodeStepOut | .run =>
    some { d with action := kind, last := span, depthAtStep := depth }
  | .byteCodeStepIn => some { d with action := .byteCodeStepIn }
  | .byteCodeStepOver => some { d with action := .byteCodeStepOver, target := some (ip + 1) }
  | _ => none

end DebugState

end LuaMachine
