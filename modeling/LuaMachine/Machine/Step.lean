import LuaMachine.Machine.Call
import LuaMachine.Machine.Variables

/-!
# Instructions at work

What each instruction does to the running processor. A step either goes on or leaves the loop that
runs the code: by the return of the function that the loop was started for, or by a suspension.
-/

namespace LuaMachine

/-- How a run of code ends. -/
inductive Exit where
  /-- the function that was entered returned -/
  | returned (v : Value)
  /-- the coroutine suspended -/
  | yielded (v : Value)
deriving Repr

namespace Exec

/-- Jump; a jump back is a place where a cancelled execution stops. -/
def jump (target : Nat) : Exec Unit := do
  if target ≤ (← address) then safepoint
  goTo target

/-- Bind the arguments of the innermost frame to its first slots. -/
def bindArguments (params : Nat) (varargs : Bool) : Exec Unit := do
  let args := (← topFrame).pending
  modifyTopFrame fun f => { f with pending := [] }
  declareLocals 0 ((args ++ List.replicate (params - args.length) Value.nil).take params)
  if varargs then modifyTopFrame fun f => { f with varargs := args.drop params }

/-- The table on top of the stack. -/
def tableOnTop : Exec TableId := do
  match ← peek 0 with
  | .table id => return id
  | v => fail (.index v.typeName)

/-- Store values at consecutive positions of a table. -/
def storeItems (id : TableId) : Nat → List Value → Exec Unit
  | _, [] => return
  | i, v :: rest => do
    setIndex id (.ofNat i) v
    storeItems id (i + 1) rest

/-- One of the numbers that control a loop. -/
def loopNumber (depth : Nat) (what : String) : Exec Number := do
  match (← peek depth).toNumber? with
  | some n => return n
  | none => fail (.loopNumber what)

/-- The current value, the limit and the step of a numeric loop. -/
def loopState : Exec (Number × Number × Number) := do
  let number (v : Value) : Number := v.toNumber?.getD .nan
  return (number (← peek 2), number (← peek 1), number (← peek 0))

/-- Turn the expressions of a generic loop into function, state and control. A table that cannot be
called is traversed. -/
def prepareIteration (triple : Value) : Exec Unit := do
  let f := triple.nth 0
  match f, ← metamethod? f "__call" with
  | .table _, none => pushAll [← newCallback (.builtin .next), f, .nil]
  | _, _ => pushAll [f, triple.nth 1, triple.nth 2]

/-- Take the function and the arguments of a call off the stack; handlers are followed. -/
def called (argc : Nat) : Exec (Value × List Value) := do
  if (← processor).values.size < argc + 1 then fail .stackUnderflow
  let args := Value.flatten (← popMany argc)
  let f ← pop
  safepoint
  resolveCallable f args

/-- Suspend the coroutine behind the call, with the values for who resumed it. -/
def suspend (args : List Value) : Exec (Option Exit) := do
  let p ← processor
  if !p.isCoroutine then fail .yieldOutside
  if !p.canYield then fail .yieldAcrossHost
  advance
  return some (.yielded (.ofList args))

/-- Return from the innermost frame of a loop that was entered at a height of the call stack. -/
def leaveFrame (depth values : Nat) : Exec (Option Exit) := do
  let result ← if values == 0 then pure .void else pop
  match (← processor).frames.back? with
  | none => fail .returnWithoutFrame
  | some frame =>
    modifyProcessor fun p => { p with frames := p.frames.pop }
    truncate frame.base
    match frame.returnAddress with
    | some address =>
      if (← processor).frames.size > depth then
        goTo address
        push result
        return none
      else return some (.returned result)
    | none => return some (.returned result)

end Exec

namespace Reentry

open Exec

/-- The cell that a new closure captures. -/
def capture (r : Reentry) (s : Symbol) : Exec CellId := do
  match s with
  | .local _ slot => localCell .noFrame slot
  | .upvalue name _ => match (← get).cellOf? s with
    | some cell => return cell
    | none => fail (.invalidUpvalue name)
  | .defaultEnv => newCell (← get).globals
  | .global .. => newCell (← r.readSymbol s)

/-- Make a closure of the function at an entry. -/
def makeClosure (r : Reentry) (entry : Nat) (captures : List Symbol) : Exec Value := do
  let cells ← captures.mapM fun s => return (s.name, ← r.capture s)
  newClosure { owner := (← get).active, entry, upvalues := cells.toArray }

/-- Carry out a call instruction. -/
def stepCall (r : Reentry) (argc : Nat) (span : Option Span) : Exec (Option Exit) := do
  let (f, args) ← called argc
  match f with
  | .function id =>
    enterClosure id args (some ((← address) + 1)) span
    return none
  | .callback c => match c.native with
    | .yield => suspend args
    | _ =>
      push (← invoke r c args span)
      advance
      return none
  | v => fail (.call v.typeName)

/-- Carry out one instruction in a loop that was entered at a height of the call stack. -/
def step (r : Reentry) (depth : Nat) (i : Instruction) : Exec (Option Exit) :=
  let onward (x : Exec Unit) : Exec (Option Exit) := do
    x
    advance
    return none
  match i.op with
  | .nop | .header .. => onward (return)
  | .beginFn locals => onward do
    let _ ← topFrame
    modifyTopFrame fun f =>
      { f with locals := Array.replicate locals.length none, symbols := locals }
  | .args params varargs => onward (bindArguments params varargs)
  | .literal v => onward (push v)
  | .pop n => onward do
    let size := (← processor).values.size
    if size < n then fail .stackUnderflow
    truncate (size - n)
  | .copy n => onward do push (← peek n)
  | .load s => onward do push (← r.readSymbol s)
  | .store s index => onward do r.assignSymbol s ((← peek 0).nth index)
  | .local slot index => onward do declareLocal slot ((← peek 0).nth index)
  | .closure entry captures => onward do push (← r.makeClosure entry captures)
  | .varargs => onward do push (.ofList (← topFrame).varargs)
  | .call argc => r.stepCall argc i.span
  | .method name => onward do
    let object ← pop
    push (← r.index object (.string name))
    push object
  | .ret values => leaveFrame depth values
  | .jump target => do
    jump target
    return none
  | .jumpIfFalse target => do
    if (← pop).isTruthy then advance else jump target
    return none
  | .jumpFalseOrPop target => do
    if (← peek 0).isTruthy then
      let _ ← pop
      advance
    else jump target
    return none
  | .jumpTrueOrPop target => do
    if (← peek 0).isTruthy then jump target
    else
      let _ ← pop
      advance
    return none
  | .binary op => onward do
    let b ← pop
    let a ← pop
    push (← r.binary op a b)
  | .not => onward do push (.boolean !(← pop).isTruthy)
  | .neg => onward do push (← r.negate (← pop))
  | .len => onward do push (← r.length (← pop))
  | .newTable => onward do push (← Exec.newTable {})
  | .tableSet => onward do
    let value ← pop
    let key := (← pop).scalar
    Exec.setIndex (← tableOnTop) key value
  | .tableAppend index expand => onward do
    let value ← pop
    let id ← tableOnTop
    storeItems id index (if expand then value.toList else [value])
  | .index => onward do
    let key := (← pop).scalar
    let object ← pop
    push (← r.index object key)
  | .indexSet index => onward do
    let key := (← pop).scalar
    let object ← pop
    r.setIndex object key ((← peek 0).nth index)
  | .makeTuple n => onward do push (.ofList (Value.flatten (← popMany n)))
  | .scalar => onward do push (← pop).scalar
  | .forPrep => onward do
    if (← processor).values.size < 3 then fail .stackUnderflow
    let first ← loopNumber 2 "initial value"
    let limit ← loopNumber 1 "limit"
    let step ← loopNumber 0 "step"
    setPeek 2 (.number first)
    setPeek 1 (.number limit)
    setPeek 0 (.number step)
  | .forLoop exit => do
    let (value, limit, step) ← loopState
    if (Number.lt .zero step && limit.lt value) || (step.le .zero && value.lt limit) then goTo exit
    else advance
    return none
  | .forStep => onward do
    let (value, _, step) ← loopState
    setPeek 2 (.number (value.add step))
  | .forVar slot => onward do declareLocal slot (← peek 2)
  | .iterPrep => onward do prepareIteration (← pop)
  | .iterCheck exit => do
    let result ← pop
    let first := result.nth 0
    if first.isNil then goTo exit
    else
      let _ ← peek 0
      setPeek 0 first
      push result
      advance
    return none

end Reentry

end LuaMachine
