import LuaMachine.Machine.Heap

/-!
# Debugger front ends

What a debugger can ask of a paused script, what it is shown, and a front end as data: a plan of
actions that it takes one after the other, and after them one action for ever.
-/

namespace LuaMachine

/-- What a debugger answers when the script pauses. -/
inductive ActionKind where
  | run | stepIn | stepOver | stepOut | byteCodeStepIn | byteCodeStepOver | byteCodeStepOut
  | toggleBreakpoint | setBreakpoint | clearBreakpoint | resetBreakpoints | refresh | hardRefresh
  | none
deriving DecidableEq, Repr, Inhabited

namespace ActionKind

def name : ActionKind → String
  | run => "Run"
  | stepIn => "StepIn"
  | stepOver => "StepOver"
  | stepOut => "StepOut"
  | byteCodeStepIn => "ByteCodeStepIn"
  | byteCodeStepOver => "ByteCodeStepOver"
  | byteCodeStepOut => "ByteCodeStepOut"
  | toggleBreakpoint => "ToggleBreakpoint"
  | setBreakpoint => "SetBreakpoint"
  | clearBreakpoint => "ClearBreakpoint"
  | resetBreakpoints => "ResetBreakpoints"
  | refresh => "Refresh"
  | hardRefresh => "HardRefresh"
  | none => "None"

def all : List ActionKind :=
  [run, stepIn, stepOver, stepOut, byteCodeStepIn, byteCodeStepOver, byteCodeStepOut,
    toggleBreakpoint, setBreakpoint, clearBreakpoint, resetBreakpoints, refresh, hardRefresh, none]

def ofName? (s : String) : Option ActionKind := all.find? (·.name == s)

end ActionKind

/-- An action, and the place it is about where it is about one. -/
structure DebuggerAction where
  kind : ActionKind
  source : Nat := 0
  line : Nat := 0
  column : Nat := 0
  lines : List Nat := []
deriving DecidableEq, Repr, Inhabited

/-- What a front end can handle. -/
structure DebuggerCaps where
  sourceCode : Bool := true
  byteCode : Bool := false
  /-- breakpoints are matched by line -/
  lineBreakpoints : Bool := false
deriving DecidableEq, Repr

/-- The panels that a paused script fills. -/
inductive Panel where
  | callStack | watches | valueStack | locals | threads
deriving DecidableEq, Repr

namespace Panel

def name : Panel → String
  | callStack => "CallStack"
  | watches => "Watches"
  | valueStack => "VStack"
  | locals => "Locals"
  | threads => "Threads"

def all : List Panel := [callStack, watches, valueStack, locals, threads]

def ofName? (s : String) : Option Panel := all.find? (·.name == s)

end Panel

/-- A row of a panel. -/
structure WatchItem where
  address : Option Nat := none
  base : Option Nat := none
  returnAddress : Option Nat := none
  name : Option String := none
  value : Option Value := none
  symbol : Option Symbol := none
  location : Option Span := none
  isError : Bool := false
deriving Repr

/-- What a front end is told. -/
inductive DebugEvent where
  | source (id : Nat) (name : String) (spans : Nat)
  | byteCode (listing : List String)
  | error (message : String)
  | action (ip : Nat) (span : Option Span) (kind : ActionKind)
  | ended
  | breakpoints (spans : List Span)
  /-- the rows of a panel, with the heap that their values refer to -/
  | update (panel : Panel) (rows : List WatchItem) (heap : Heap)

/-- A front end. -/
structure Debugger where
  caps : DebuggerCaps := {}
  /-- the actions it will take -/
  actions : List DebuggerAction := []
  /-- the action it takes when those are used up -/
  fallback : DebuggerAction := { kind := .run }
  watches : List String := []
  panels : List Panel := []
  /-- at which of its chances to ask for a pause it does so, counted from one -/
  pauseAt : List Nat := []
  pauseOnError : Bool := false
  /-- how many chances it has had -/
  asked : Nat := 0
deriving Repr, Inhabited

end LuaMachine
