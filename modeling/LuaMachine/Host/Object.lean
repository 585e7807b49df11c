import LuaMachine.Machine.Reentry
import LuaMachine.Library.Arguments

/-!
# Host objects

The members that scripts see of the host's objects: an account with an owner and a balance, a sensor
that counts its readings, and the stores of shared variables, whose fields are the variables.
-/

namespace LuaMachine

namespace HostObject

open Exec

/-- The methods of a type. -/
def methods : HostType → List Method
  | .account => [.deposit]
  | .sensor => [.record, .echo, .apply, .fail, .explode]
  | .store => []

/-- The value of a property; those of a store are given by its variables. -/
def property? (store : VariableStore) : HostObject → String → Option Value
  | account owner balance, name =>
    if name == "owner" then some (.string owner)
    else if name == "balance" then some (.number balance)
    else none
  | sensor label readings, name =>
    if name == "name" then some (.string label)
    else if name == "count" then some (.ofNat readings)
    else none
  | .store, name | .former _, name => some (store.get name)

/-- The member of an object under a name; a method comes bound to its object. -/
def member? (id : ObjectId) (o : HostObject) (name : String) : Exec (Option Value) := do
  match o.property? ((← heap).storeOf o) name with
  | some v => return some v
  | none => match (methods o.type).find? (·.name == name) with
    | some m => return some (← newCallback (.method id m))
    | none => return none

/-- Read a member of an object. -/
def getMember (id : ObjectId) (key : Value) : Exec Value := do
  let h ← heap
  let refused : Fault := .noField (h.display key) (h.typeNameOf id)
  match key, h.object? id with
  | .string name, some o => match ← o.member? id name with
    | some v => return v
    | none => fail refused
  | _, _ => fail refused

/-- Assign to a member of an object. -/
def setMember (id : ObjectId) (key value : Value) : Exec Unit := do
  let h ← heap
  let refused : Fault := .noAssignment (h.display key) (h.typeNameOf id)
  match key, h.object? id with
  | .string name, some o => match o with
    | .store => modifyHeap fun h => { h with store := h.store.set name value }
    | .former n => modifyHeap fun h => { h with former := h.former.modify n (·.set name value) }
    | .account .. =>
      if name == "balance" then match value.toNumber? with
        | some n => modifyHeap (·.setBalance id n)
        | none => fail .balanceNumber
      else if (o.property? (h.storeOf o) name).isSome then fail (.readOnly name o.type.name)
      else fail refused
    | .sensor .. =>
      if (o.property? (h.storeOf o) name).isSome then fail (.readOnly name o.type.name) else fail refused
  | _, _ => fail refused

end HostObject

namespace Method

open Exec

/-- The arguments of a method without its receiver, which a call with a colon passes. -/
def withoutReceiver (id : ObjectId) (args : Arguments) : Arguments :=
  match args.get? 0 with
  | some (.userdata first) => if first == id then args.skip 1 else args
  | _ => args

/-- Call a method of an object. -/
def run (r : Reentry) (id : ObjectId) (m : Method) (args : Arguments) : Exec Value := do
  let args := withoutReceiver id args
  match m, (← heap).object? id with
  | .deposit, some (.account _ balance) =>
    let amount ← args.number 0 m.name
    let balance := balance.add amount
    modifyHeap (·.setBalance id balance)
    return .number balance
  | .record, some (.sensor _ readings) =>
    let _ ← args.number 0 m.name
    modifyHeap (·.setReadings id (readings + 1))
    return .ofNat (readings + 1)
  | .echo, _ => return .ofList args.values
  | .apply, _ => r.call (args.get 0) (args.skip 1).values
  | .fail, some (.sensor label _) =>
    let text := (← heap).display (args.get 0)
    Exec.fail (.raised s!"{label}: {text}")
  | .explode, _ => throw (.panic "sensor hardware fault")
  | _, _ => return .nil

end Method

end LuaMachine
