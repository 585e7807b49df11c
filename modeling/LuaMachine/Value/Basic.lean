import LuaMachine.Value.Native
import LuaMachine.Number.Numeral
import LuaMachine.Number.Shortest

/-!
# Values

A `Value` is what a script computes with. Tables, functions, host objects and coroutines are held
by identity. A `tuple` carries several results at once; wherever one value is wanted it stands for
its first item (`Value.scalar`).

Main statements: a scalar is never a tuple (`isTuple_scalar`), and taking it twice changes nothing
(`scalar_scalar`).
-/

namespace LuaMachine

/-- The kinds of values. -/
inductive DataType where
  | nil | boolean | number | string | table | function | callback | userdata | thread | tuple
deriving DecidableEq, Repr

/-- The name that a script sees; native functions are functions. -/
def DataType.name : DataType → String
  | nil => "nil"
  | boolean => "boolean"
  | number => "number"
  | string => "string"
  | table => "table"
  | function | callback => "function"
  | userdata => "userdata"
  | thread => "thread"
  | tuple => "tuple"

/-- A script value. -/
inductive Value where
  | nil
  | boolean (b : Bool)
  | number (n : Number)
  | string (s : String)
  | table (id : TableId)
  | function (id : ClosureId)
  | callback (c : Callback)
  | userdata (id : ObjectId)
  | coroutine (id : CoroutineId)
  | tuple (items : List Value)
deriving Inhabited, Repr

namespace Value

/-- The results of a call: one value stays as it is, any other number of values is a tuple. -/
def ofList : List Value → Value
  | [v] => v
  | vs => tuple vs

/-- The result of a function that returns nothing. -/
def void : Value := tuple []

def ofNat (n : Nat) : Value := number (.ofNat n)

def ofInt (n : Int) : Value := number (.ofInt n)

def dataType : Value → DataType
  | nil => .nil
  | boolean _ => .boolean
  | number _ => .number
  | string _ => .string
  | table _ => .table
  | function _ => .function
  | callback _ => .callback
  | userdata _ => .userdata
  | coroutine _ => .thread
  | tuple _ => .tuple

/-- The type name that a script sees; a tuple has that of its first item. -/
def typeName : Value → String
  | tuple [] => "nil"
  | tuple (v :: _) => v.typeName
  | v => v.dataType.name

/-- Everything but `nil` and `false` is true. -/
def isTruthy : Value → Bool
  | nil => false
  | boolean b => b
  | tuple [] => false
  | tuple (v :: _) => v.isTruthy
  | _ => true

/-- `nil`, also as the first item of a tuple or for want of one. -/
def isNil : Value → Bool
  | nil => true
  | tuple [] => true
  | tuple (v :: _) => v.isNil
  | _ => false

def isCallable : Value → Bool
  | function _ | callback _ => true
  | _ => false

def isTuple : Value → Bool
  | tuple _ => true
  | _ => false

/-- The one value that stands for a result. -/
def scalar : Value → Value
  | tuple [] => nil
  | tuple (v :: _) => v.scalar
  | v => v

/-- The values of a result, one level deep. -/
def toList : Value → List Value
  | tuple vs => vs
  | v => [v]

/-- The value at a position of a result, `nil` beyond its end. -/
def nth : Value → Nat → Value
  | tuple vs, i => (vs[i]?.getD nil).scalar
  | v, 0 => v
  | _, _ + 1 => nil

/-- The values that a list of operands stands for: the last one gives all its items and every other
one its scalar. -/
def flatten : List Value → List Value
  | [] => []
  | [tuple vs] => vs.map scalar
  | [v] => [v]
  | v :: rest => v.scalar :: flatten rest

/-- The number that a value stands for; a text that spells a number does. -/
def toNumber? (v : Value) : Option Number :=
  match v.scalar with
  | number n => some n
  | string s => Number.ofText? s
  | _ => none

/-- The integer that a value stands for, clamped to 64 bits. -/
def toInteger? (v : Value) : Option Int :=
  match v.toNumber? with
  | some n => if n.isIntegral then some n.toInteger else none
  | none => none

def asString? : Value → Option String
  | string s => some s
  | _ => none

def asTable? : Value → Option TableId
  | table id => some id
  | _ => none

/-- The text of a string or a number, which are what concatenation joins. -/
def toConcatText? : Value → Option String
  | string s => some s
  | number n => some n.format
  | _ => none

/-- Equality of values other than tuples: numbers by their order, references by identity. -/
def atomEquals : Value → Value → Bool
  | nil, nil => true
  | boolean a, boolean b => a == b
  | number a, number b => a.equals b
  | string a, string b => a == b
  | table a, table b => a == b
  | function a, function b => a == b
  | callback a, callback b => a.identity == b.identity
  | userdata a, userdata b => a == b
  | coroutine a, coroutine b => a == b
  | _, _ => false

mutual

/-- Primitive equality. Two tuples are compared item by item; a tuple and another value by their
scalars. -/
def rawEquals : Value → Value → Bool
  | tuple as, tuple bs => rawEqualsList as bs
  | a, b => atomEquals a.scalar b.scalar

@[inherit_doc rawEquals]
def rawEqualsList : List Value → List Value → Bool
  | [], [] => true
  | a :: as, b :: bs => rawEquals a b && rawEqualsList as bs
  | _, _ => false

end

@[simp] theorem isTuple_scalar (v : Value) : v.scalar.isTuple = false := by
  fun_induction scalar v with
  | case1 => rfl
  | case2 v _ ih => exact ih
  | case3 v h₁ h₂ =>
    cases v with
    | tuple vs => cases vs <;> simp_all
    | _ => rfl

/-- A value that is no tuple is its own scalar. -/
theorem scalar_of_isTuple_eq_false {v : Value} (h : v.isTuple = false) : v.scalar = v := by
  cases v <;> first | rfl | cases h

@[simp] theorem scalar_scalar (v : Value) : v.scalar.scalar = v.scalar :=
  scalar_of_isTuple_eq_false (isTuple_scalar v)

end Value

end LuaMachine
