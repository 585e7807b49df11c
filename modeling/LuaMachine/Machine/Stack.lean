import LuaMachine.Machine.World

/-!
# The stacks of the running processor

How instructions reach the value stack, the innermost frame and its variables.
-/

namespace LuaMachine

namespace Exec

/-! ## Values -/

@[inline] def push (v : Value) : Exec Unit :=
  modifyProcessor fun p => { p with values := p.values.push v }

def pushAll : List Value → Exec Unit
  | [] => return
  | v :: rest => do
    push v
    pushAll rest

/-- Take the top off. -/
def pop : Exec Value := fun w =>
  match w.processor.values.back? with
  | some v =>
    .ok v { w with processor := { w.processor with values := w.processor.values.pop } }
  | none => .error (.error (.ofFault .stackUnderflow)) w

/-- The value `depth` below the top. -/
def peek (depth : Nat) : Exec Value := fun w =>
  if depth < w.processor.values.size then
    match w.processor.values[w.processor.values.size - 1 - depth]? with
    | some v => .ok v w
    | none => .error (.error (.ofFault .stackUnderflow)) w
  else .error (.error (.ofFault .stackUnderflow)) w

/-- Replace the value `depth` below the top. -/
def setPeek (depth : Nat) (v : Value) : Exec Unit :=
  modifyProcessor fun p =>
    { p with values := p.values.setIfInBounds (p.values.size - 1 - depth) v }

/-- Drop the topmost values down to a height. -/
@[inline] def truncate (height : Nat) : Exec Unit :=
  modifyProcessor fun p => { p with values := p.values.shrink height }

/-- Take the topmost `n` values off, lowest first. -/
def popMany (n : Nat) : Exec (List Value) := fun w =>
  let size := w.processor.values.size
  if n ≤ size then
    let items := (w.processor.values.extract (size - n) size).toList
    .ok items
      { w with processor := { w.processor with values := w.processor.values.shrink (size - n) } }
  else .error (.error (.ofFault .stackUnderflow)) w

/-! ## The next instruction -/

def address : Exec Nat := do return (← get).processor.ip

@[inline] def goTo (address : Nat) : Exec Unit :=
  modifyProcessor fun p => { p with ip := address }

@[inline] def advance : Exec Unit :=
  modifyProcessor fun p => { p with ip := p.ip + 1 }

/-! ## Frames -/

@[inline] def pushFrame (f : Frame) : Exec Unit :=
  modifyProcessor fun p => { p with frames := p.frames.push f }

/-- The frame of the function that is running; `missing` is the fault when there is none. -/
def topFrameOr (missing : Fault) : Exec ScriptFrame := fun w =>
  match w.processor.frames.back? with
  | some (.script f) => .ok f w
  | _ => .error (.error (.ofFault missing)) w

@[inherit_doc topFrameOr] def topFrame : Exec ScriptFrame := topFrameOr .noFrame

@[inline] def modifyTopFrame (f : ScriptFrame → ScriptFrame) : Exec Unit :=
  modifyProcessor fun p =>
    { p with
      frames := p.frames.modify (p.frames.size - 1) fun
        | .script frame => .script (f frame)
        | host => host }

/-- Put a cell into a slot, making room for it. -/
def setSlot (locals : Array (Option CellId)) (slot : Nat) (cell : CellId) :
    Array (Option CellId) :=
  if slot < locals.size then locals.setIfInBounds slot (some cell)
  else (locals ++ Array.replicate (slot - locals.size) none).push (some cell)

/-- Declare a variable of the innermost frame: its slot gets a new cell. -/
def declareLocal (slot : Nat) (v : Value) : Exec Unit := do
  let _ ← topFrame
  let cell ← newCell v
  modifyTopFrame fun f => { f with locals := setSlot f.locals slot cell }

/-- Declare the variables of consecutive slots. -/
def declareLocals : Nat → List Value → Exec Unit
  | _, [] => return
  | slot, v :: rest => do
    declareLocal slot v
    declareLocals (slot + 1) rest

/-- The cell of a slot of the innermost frame; a slot without one gets one that holds `nil`.
`missing` is the fault when there is no frame. -/
def localCell (missing : Fault) (slot : Nat) : Exec CellId := do
  match (← topFrameOr missing).locals[slot]? with
  | some (some cell) => return cell
  | _ =>
    let cell ← newCell .nil
    modifyTopFrame fun f => { f with locals := setSlot f.locals slot cell }
    return cell

end Exec

end LuaMachine
