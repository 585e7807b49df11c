import LuaMachine.Machine.Reentry
import LuaMachine.Host.Object
import LuaMachine.Operator

/-!
# Operators and indexing

What the operators of the language compute. Operands of the basic types are handled directly; for
tables the handlers in their metatables decide.
-/

namespace LuaMachine

/-- The longest chain of `__index` or `__newindex` handlers that is followed. -/
def maxIndexChain : Nat := 100

namespace Reentry

open Exec

/-- Call a handler for its first result. -/
def handle (r : Reentry) (handler : Value) (args : List Value) : Exec Value := do
  return (← r.call handler args).scalar

def arithmetic (r : Reentry) (event : String) (f : Number → Number → Number) (a b : Value) :
    Exec Value :=
  match a.toNumber?, b.toNumber? with
  | some x, some y => return .number (f x y)
  | x, _ => do
    match ← handlerOf? a b event with
    | some handler => r.handle handler [a, b]
    | none => fail (.arithmetic (if x.isNone then a else b).typeName)

def concat (r : Reentry) (a b : Value) : Exec Value :=
  match a.toConcatText?, b.toConcatText? with
  | some x, some y => return .string (x ++ y)
  | x, _ => do
    match ← handlerOf? a b "__concat" with
    | some handler => r.handle handler [a, b]
    | none => fail (.concatenate (if x.isNone then a else b).typeName)

/-- Equality; two different tables are equal if a handler says so. -/
def equals (r : Reentry) (a b : Value) : Exec Bool :=
  if a.rawEquals b then return true
  else match a, b with
    | .table _, .table _ => do
      match ← handlerOf? a b "__eq" with
      | some handler => return (← r.handle handler [a, b]).isTruthy
      | none => return false
    | _, _ => return false

def lessThan (r : Reentry) (a b : Value) : Exec Bool :=
  match a, b with
  | .number x, .number y => return x.lt y
  | .string x, .string y => return x < y
  | _, _ => do
    match ← handlerOf? a b "__lt" with
    | some handler => return (← r.handle handler [a, b]).isTruthy
    | none => fail (.compare a.typeName b.typeName)

/-- The order; without a handler of its own, `a ≤ b` is `not (b < a)`. -/
def lessEqual (r : Reentry) (a b : Value) : Exec Bool :=
  match a, b with
  | .number x, .number y => return x.le y
  | .string x, .string y => return !(y < x)
  | _, _ => do
    match ← handlerOf? a b "__le" with
    | some handler => return (← r.handle handler [a, b]).isTruthy
    | none => match ← handlerOf? a b "__lt" with
      | some handler => return !(← r.handle handler [b, a]).isTruthy
      | none => fail (.compare a.typeName b.typeName)

def binary (r : Reentry) (op : BinaryOp) (a b : Value) : Exec Value :=
  match op with
  | .add => r.arithmetic "__add" .add a b
  | .sub => r.arithmetic "__sub" .sub a b
  | .mul => r.arithmetic "__mul" .mul a b
  | .div => r.arithmetic "__div" .div a b
  | .mod => r.arithmetic "__mod" .mod a b
  | .pow => r.arithmetic "__pow" .pow a b
  | .concat => r.concat a b
  | .eq => return .boolean (← r.equals a b)
  | .ne => return .boolean !(← r.equals a b)
  | .lt => return .boolean (← r.lessThan a b)
  | .le => return .boolean (← r.lessEqual a b)
  | .gt => return .boolean (← r.lessThan b a)
  | .ge => return .boolean (← r.lessEqual b a)

def negate (r : Reentry) (a : Value) : Exec Value :=
  match a.toNumber? with
  | some x => return .number x.neg
  | none => do
    match ← metamethod? a "__unm" with
    | some handler => r.handle handler [a, a]
    | none => fail (.arithmetic a.typeName)

/-- The length of a text in bytes, or of a table up to its border. -/
def length (r : Reentry) (a : Value) : Exec Value := do
  match ← metamethod? a "__len" with
  | some handler => r.handle handler [a]
  | none => match a with
    | .string s => return .ofNat s.utf8ByteSize
    | .table id => return .ofNat ((← heap).table id).length
    | v => fail (.length v.typeName)

/-- Follow `__index` from an object. -/
def indexFrom (r : Reentry) (key : Value) : Nat → Value → Exec Value
  | 0, _ => fail .indexChain
  | n + 1, object =>
    match object with
    | .table id => do
      let v := (← heap).getIndex id key
      if !v.isNil then return v
      match ← metamethod? object "__index" with
      | none => return .nil
      | some handler =>
        if handler.isCallable then r.handle handler [object, key]
        else r.indexFrom key n handler
    | .userdata id => HostObject.getMember id key
    | v => fail (.index v.typeName)

/-- The value at an index of an object. -/
def index (r : Reentry) (object key : Value) : Exec Value :=
  r.indexFrom key maxIndexChain object.scalar

/-- Follow `__newindex` from an object. -/
def setIndexFrom (r : Reentry) (key value : Value) : Nat → Value → Exec Unit
  | 0, _ => fail .newindexChain
  | n + 1, object =>
    match object with
    | .table id => do
      if !((← heap).getIndex id key).isNil then Exec.setIndex id key value
      else match ← metamethod? object "__newindex" with
        | none => Exec.setIndex id key value
        | some handler =>
          if handler.isCallable then
            let _ ← r.call handler [object, key, value]
          else r.setIndexFrom key value n handler
    | .userdata id => HostObject.setMember id key value
    | v => fail (.index v.typeName)

/-- Assign to an index of an object. -/
def setIndex (r : Reentry) (object key value : Value) : Exec Unit :=
  r.setIndexFrom key value maxIndexChain object.scalar

end Reentry

end LuaMachine
