import LuaMachine.Machine.Processor
import LuaMachine.Table
import LuaMachine.Value.Text

/-!
# The heap

The things that values refer to by identity: tables, the cells of variables, closures, coroutines
and host objects. Nothing is ever removed, so an identity stays valid.
-/

namespace LuaMachine

/-- The kinds of host objects. -/
inductive HostType where
  | account | sensor | store
deriving DecidableEq, Repr

def HostType.name : HostType → String
  | account => "Account"
  | sensor => "Sensor"
  | store => "GlobalVariables"

/-- A host object. -/
inductive HostObject where
  | account (owner : String) (balance : Number)
  | sensor (name : String) (readings : Nat)
  /-- the variables shared by scripts and host -/
  | store
  /-- shared variables that the host has replaced; who has them keeps them -/
  | former (number : Nat)
deriving DecidableEq, Repr, Inhabited

def HostObject.type : HostObject → HostType
  | account .. => .account
  | sensor .. => .sensor
  | store | former _ => .store

/-- The variables shared by scripts and host, in order of insertion. -/
structure VariableStore where
  entries : List (String × Value) := []
deriving Repr, Inhabited

namespace VariableStore

def get? (s : VariableStore) (name : String) : Option Value :=
  (s.entries.find? (·.1 == name)).map (·.2)

def get (s : VariableStore) (name : String) : Value := (s.get? name).getD .nil

def remove (s : VariableStore) (name : String) : VariableStore :=
  ⟨s.entries.filter (·.1 != name)⟩

/-- Set a variable to the scalar of a value; `nil` removes it. A variable that is there keeps its
place. -/
def set (s : VariableStore) (name : String) (value : Value) : VariableStore :=
  let v := value.scalar
  if v.isNil then s.remove name
  else if (s.get? name).isSome then
    ⟨s.entries.map fun e => if e.1 == name then (name, v) else e⟩
  else ⟨s.entries ++ [(name, v)]⟩

def names (s : VariableStore) : List String := s.entries.map (·.1)

def size (s : VariableStore) : Nat := s.entries.length

end VariableStore

/-- Everything that values refer to. -/
structure Heap where
  tables : Array Table := #[]
  cells : Array Value := #[]
  closures : Array Closure := #[]
  coroutines : Array Coroutine := #[]
  objects : Array HostObject := #[]
  store : VariableStore := {}
  /-- the stores of shared variables that have been replaced -/
  former : Array VariableStore := #[]
  /-- the identity of the next native function value -/
  nextCallback : Nat := 0
deriving Inhabited

namespace Heap

/-! ## Tables -/

def table (h : Heap) (id : TableId) : Table := h.tables.getD id.index {}

/-- Add a table; its identity is `⟨h.tables.size⟩`. -/
def addTable (h : Heap) (t : Table) : Heap := { h with tables := h.tables.push t }

def modifyTable (h : Heap) (id : TableId) (f : Table → Table) : Heap :=
  { h with tables := h.tables.modify id.index f }

def getIndex (h : Heap) (id : TableId) (key : Value) : Value := (h.table id).get key

def getField (h : Heap) (id : TableId) (key : String) : Value := (h.table id).getString key

/-- Assign to an index of a table, or say why that cannot be. -/
def setIndex (h : Heap) (id : TableId) (key value : Value) : Except TableFault Heap :=
  match Key.ofValue key with
  | .ok k => .ok (h.modifyTable id fun t => t.put k value.scalar)
  | .error e => .error e

def setField (h : Heap) (id : TableId) (key : String) (value : Value) : Heap :=
  h.modifyTable id (·.setString key value)

/-! ## Variables, closures and coroutines -/

def cell (h : Heap) (id : CellId) : Value := h.cells.getD id.index .nil

/-- Add a cell; its identity is `⟨h.cells.size⟩`. -/
def addCell (h : Heap) (v : Value) : Heap := { h with cells := h.cells.push v }

def setCell (h : Heap) (id : CellId) (v : Value) : Heap :=
  { h with cells := h.cells.setIfInBounds id.index v }

def closure? (h : Heap) (id : ClosureId) : Option Closure := h.closures[id.index]?

def addClosure (h : Heap) (c : Closure) : Heap := { h with closures := h.closures.push c }

def coroutine? (h : Heap) (id : CoroutineId) : Option Coroutine := h.coroutines[id.index]?

def addCoroutine (h : Heap) (c : Coroutine) : Heap := { h with coroutines := h.coroutines.push c }

def modifyCoroutine (h : Heap) (id : CoroutineId) (f : Coroutine → Coroutine) : Heap :=
  { h with coroutines := h.coroutines.modify id.index f }

/-! ## Host objects -/

def object? (h : Heap) (id : ObjectId) : Option HostObject := h.objects[id.index]?

def addObject (h : Heap) (o : HostObject) : Heap := { h with objects := h.objects.push o }

/-- Change the balance of an account; there are no other objects with one. -/
def setBalance (h : Heap) (id : ObjectId) (balance : Number) : Heap :=
  { h with
    objects := h.objects.modify id.index fun
      | .account owner _ => .account owner balance
      | o => o }

/-- Change how many readings a sensor has; there are no other objects with some. -/
def setReadings (h : Heap) (id : ObjectId) (readings : Nat) : Heap :=
  { h with
    objects := h.objects.modify id.index fun
      | .sensor name _ => .sensor name readings
      | o => o }

/-- The shared variables that an object stands for. -/
def storeOf (h : Heap) : HostObject → VariableStore
  | .former n => h.former.getD n {}
  | _ => h.store

/-- Start over with new shared variables. What stood for the old ones goes on to do so. -/
def replaceStore (h : Heap) : Heap :=
  { h with
    store := {}
    former := h.former.push h.store
    objects := h.objects.map fun o => if o = .store then .former h.former.size else o }

/-- The text of a host object, if its type gives it one. -/
def objectText (h : Heap) (id : ObjectId) : Option String :=
  match h.object? id with
  | some (.account owner _) => some s!"Account({owner})"
  | some .store => some s!"GlobalVariables({h.store.size})"
  | some (.former n) => some s!"GlobalVariables({(h.storeOf (.former n)).size})"
  | _ => none

def typeNameOf (h : Heap) (id : ObjectId) : String :=
  match h.object? id with
  | some o => o.type.name
  | none => ""

/-- The text of any value. -/
def display (h : Heap) (v : Value) : String := v.display h.objectText

/-! ## Metatables -/

/-- The handler for an event in the metatable of a value; only tables have metatables. -/
def metamethod? (h : Heap) (v : Value) (event : String) : Option Value :=
  match v with
  | .table id => match (h.table id).metatable with
    | some mt =>
      let handler := h.getField mt event
      if handler.isNil then none else some handler
    | none => none
  | _ => none

end Heap

end LuaMachine
