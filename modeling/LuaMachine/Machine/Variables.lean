import LuaMachine.Machine.Operators

/-!
# Variables

How symbols are read and assigned. Local and captured variables are cells; a global variable is a
field of whatever its environment is when the access runs.
-/

namespace LuaMachine

namespace World

/-- The global table of the running script. -/
def globals (w : World) : Value :=
  match w.scripts[w.active.index]? with
  | some s => .table s.globals
  | none => .nil

/-- The cell of a local or captured variable of the innermost script frame. -/
def cellOf? (w : World) (s : Symbol) : Option CellId :=
  match w.processor.scriptFrame? with
  | none => none
  | some f => match s with
    | .local _ slot => match f.locals[slot]? with
      | some cell => cell
      | none => none
    | .upvalue _ i => f.closure.upvalue? i
    | _ => none

/-- The value of a symbol other than a global one. -/
def readCell (w : World) (s : Symbol) : Value :=
  match s with
  | .defaultEnv => w.globals
  | s => match w.cellOf? s with
    | some cell => w.heap.cell cell
    | none => .nil

/-- Read a symbol without running handlers. -/
def peekSymbol (w : World) : Symbol → Except Fault Value
  | .global name env => do
    match ← w.peekSymbol env with
    | .table id => return w.heap.getField id name
    | v => throw (.envNotTable v.typeName)
  | s => .ok (w.readCell s)

/-- The latest declared slot of a frame with a name. -/
def slotNamed? (f : ScriptFrame) (name : String) : Option Nat :=
  (List.range f.symbols.length).reverse.find? fun slot =>
    f.symbols[slot]? == some name && (f.locals[slot]?.join).isSome

/-- What a name is at the current instruction other than a global: a declared local variable or a
captured one. -/
def boundSymbol? (w : World) (name : String) : Option Symbol :=
  match w.processor.scriptFrame? with
  | none => none
  | some f => match slotNamed? f name with
    | some slot => some (.local name slot)
    | none => (f.closure.upvalueNames.findIdx? (· == name)).map (.upvalue name ·)

/-- What a name stands for at the current instruction. -/
def symbolNamed (w : World) (name : String) : Symbol :=
  match w.boundSymbol? name with
  | some s => s
  | none =>
    if name == envName then .defaultEnv
    else .global name ((w.boundSymbol? envName).getD .defaultEnv)

end World

namespace Reentry

open Exec

/-- Read a symbol. -/
def readSymbol (r : Reentry) : Symbol → Exec Value
  | .global name env => do
    match ← r.readSymbol env with
    | .table id =>
      let t := (← heap).table id
      let v := t.getString name
      if !v.isNil || t.metatable.isNone then return v
      r.index (.table id) (.string name)
    | v => fail (.envNotTable v.typeName)
  | s => fun w => .ok (w.readCell s) w

/-- Assign to a symbol. -/
def assignSymbol (r : Reentry) (s : Symbol) (value : Value) : Exec Unit := do
  match s with
  | .local _ slot =>
    let cell ← localCell .noScriptFrame slot
    modifyHeap (·.setCell cell value.scalar)
  | .upvalue name _ => match (← get).cellOf? s with
    | some cell => modifyHeap (·.setCell cell value.scalar)
    | none => fail (.invalidUpvalue name)
  | .global name env => match ← r.readSymbol env with
    | .table id => r.setIndex (.table id) (.string name) value.scalar
    | v => fail (.envNotTable v.typeName)
  | .defaultEnv => fail .assignDefaultEnv

end Reentry

end LuaMachine
