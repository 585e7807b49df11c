import LuaMachine.Machine.Fault
import LuaMachine.Source.Span
import LuaMachine.Code.Symbol

/-!
# Processors

A processor is what runs code: a stack of values, a stack of frames and the address of the next
instruction. A script has a main processor and every coroutine has one of its own. Variables live in
cells, which closures share with the frames that declared them.
-/

namespace LuaMachine

/-- How the captures of a closure look from outside. -/
inductive UpvalueShape where
  | none
  /-- only the environment -/
  | environment
  | closure
deriving DecidableEq, Repr

def UpvalueShape.name : UpvalueShape → String
  | none => "None"
  | environment => "Environment"
  | closure => "Closure"

/-- A function of a script: the address of its header and the cells it captured. It runs only in
the script that made it. -/
structure Closure where
  owner : ScriptId
  entry : Nat
  upvalues : Array (String × CellId)
deriving Repr, Inhabited

namespace Closure

def upvalue? (c : Closure) (i : Nat) : Option CellId := c.upvalues[i]?.map (·.2)

def upvalueNames (c : Closure) : List String := (c.upvalues.map (·.1)).toList

def shape (c : Closure) : UpvalueShape :=
  match c.upvalueNames with
  | [] => .none
  | [name] => if name == envName then .environment else .closure
  | _ => .closure

end Closure

/-- The activation of a script function. -/
structure ScriptFrame where
  closure : Closure
  /-- the height of the value stack when it was called -/
  base : Nat
  /-- where its caller goes on; none when the host called it -/
  returnAddress : Option Nat
  /-- the cell of each slot that has been declared -/
  locals : Array (Option CellId) := #[]
  /-- the names of the slots -/
  symbols : List String := []
  varargs : List Value := []
  /-- the arguments, until they are bound to slots -/
  pending : List Value := []
  /-- the span of the call -/
  callSite : Option Span
deriving Repr, Inhabited

/-- The activation of a function. -/
inductive Frame where
  | script (f : ScriptFrame)
  | host (name : String) (base : Nat) (callSite : Option Span)
deriving Repr, Inhabited

namespace Frame

def isHost : Frame → Bool
  | host .. => true
  | script _ => false

def base : Frame → Nat
  | script f => f.base
  | host _ base _ => base

def returnAddress : Frame → Option Nat
  | script f => f.returnAddress
  | host .. => none

def callSite : Frame → Option Span
  | script f => f.callSite
  | host _ _ site => site

end Frame

/-- What runs code; the tops of the stacks are at the ends of the arrays. -/
structure Processor where
  values : Array Value := #[]
  frames : Array Frame := #[]
  /-- the address of the next instruction -/
  ip : Nat := 0
  isCoroutine : Bool := false
deriving Repr, Inhabited

namespace Processor

def isIdle (p : Processor) : Bool := p.frames.isEmpty && p.values.isEmpty

/-- Cut both stacks down to given heights. -/
def unwind (p : Processor) (depth height : Nat) : Processor :=
  { p with frames := p.frames.take depth, values := p.values.take height }

/-- The number of native functions that are running. -/
def hostDepth (p : Processor) : Nat := p.frames.countP Frame.isHost

/-- A coroutine may be suspended while no native function runs in it. -/
def canYield (p : Processor) : Bool := p.isCoroutine && p.hostDepth == 0

/-- The place of the innermost script frame, counted from the bottom. -/
def scriptFrameIndex? (p : Processor) : Option Nat :=
  go p.frames.size
where
  go : Nat → Option Nat
    | 0 => none
    | n + 1 => match p.frames[n]? with
      | some (.script _) => some n
      | _ => go n

def scriptFrame? (p : Processor) : Option ScriptFrame :=
  match p.scriptFrameIndex? with
  | some i => match p.frames[i]? with
    | some (.script f) => some f
    | _ => none
  | none => none

end Processor

/-- A suspended coroutine: its processor, and its function while it has not started. -/
structure CoroutineBody where
  processor : Processor
  function : Option Value
deriving Repr, Inhabited

/-- A coroutine. Its body is there while it is not running and not dead. -/
structure Coroutine where
  owner : ScriptId
  state : CoroutineState
  body : Option CoroutineBody
deriving Repr

namespace Coroutine

/-- Change the state, if that change is allowed. -/
def become (c : Coroutine) (state : CoroutineState) : Except Fault Coroutine :=
  if c.state.canBecome state then .ok { c with state } else .error (.transition c.state state)

end Coroutine

end LuaMachine
