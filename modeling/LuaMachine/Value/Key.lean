import LuaMachine.Value.Basic

/-!
# Table keys

A table is indexed by any value but `nil` and an undefined number. A `Key` is such a value in a
form where equal keys are equal as data: a tuple is its scalar and the two zeros are one.
-/

namespace LuaMachine

/-- Why a table refuses an access. -/
inductive TableFault where
  | nilKey | nanKey
  /-- `next` was asked to go on from a key that is not in the table -/
  | unknownKey
deriving DecidableEq, Repr

def TableFault.message : TableFault → String
  | nilKey => "table index is nil"
  | nanKey => "table index is NaN"
  | unknownKey => "invalid key to 'next'"

/-- A value that can index a table. -/
inductive Key where
  | boolean (b : Bool)
  | number (n : Number)
  | string (s : String)
  | table (id : TableId)
  | function (id : ClosureId)
  | callback (c : Callback)
  | userdata (id : ObjectId)
  | coroutine (id : CoroutineId)
deriving DecidableEq, Repr

namespace Key

/-- The key of a number: both zeros have the same. -/
def ofNumber (n : Number) : Key := number (if n.isZero then .zero else n)

/-- The key of an array position. -/
def ofNat (n : Nat) : Key := ofNumber (.ofNat n)

/-- The key of a value, by its scalar. -/
def ofValue (v : Value) : Except TableFault Key :=
  match v.scalar with
  | .nil | .tuple _ => .error .nilKey
  | .boolean b => .ok (boolean b)
  | .number n => if n.isNaN then .error .nanKey else .ok (ofNumber n)
  | .string s => .ok (string s)
  | .table id => .ok (table id)
  | .function id => .ok (function id)
  | .callback c => .ok (callback c)
  | .userdata id => .ok (userdata id)
  | .coroutine id => .ok (coroutine id)

def toValue : Key → Value
  | boolean b => .boolean b
  | number n => .number n
  | string s => .string s
  | table id => .table id
  | function id => .function id
  | callback c => .callback c
  | userdata id => .userdata id
  | coroutine id => .coroutine id

/-- Whether two keys are the same key. -/
def equals (a b : Key) : Bool := a.toValue.rawEquals b.toValue

/-- What a hash takes in of a key. -/
inductive Payload where
  | flag (b : Bool)
  | bits (b : UInt64)
  | text (s : String)
  | address (n : Nat)
deriving DecidableEq, Hashable, Repr

/-- The data that are hashed of a key: the kind of its value, and what tells values of a kind apart. -/
def hashed : Key → UInt8 × Payload
  | boolean b => (1, .flag b)
  | number n => (2, .bits n.bits)
  | string s => (3, .text s)
  | table id => (4, .address id.index)
  | function id => (5, .address id.index)
  | callback c => (6, .address c.identity)
  | userdata id => (7, .address id.index)
  | coroutine id => (8, .address id.index)

instance : Hashable Key := ⟨fun k => hash k.hashed⟩

end Key

end LuaMachine
