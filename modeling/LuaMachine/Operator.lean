import LuaMachine.Token.Basic

/-!
# Operators

The operators of expressions, and how tightly the binary ones bind: of two operators around an
operand, the one with the higher priority on that side takes it.
-/

namespace LuaMachine

/-- The binary operators that evaluate both operands. -/
inductive BinaryOp where
  | add | sub | mul | div | mod | pow | concat | eq | ne | lt | le | gt | ge
deriving DecidableEq, Repr

namespace BinaryOp

def symbol : BinaryOp → String
  | add => "+"
  | sub => "-"
  | mul => "*"
  | div => "/"
  | mod => "%"
  | pow => "^"
  | concat => ".."
  | eq => "=="
  | ne => "~="
  | lt => "<"
  | le => "<="
  | gt => ">"
  | ge => ">="

/-- All operators, in the order that numbers them. -/
def all : List BinaryOp := [add, sub, mul, div, mod, pow, concat, eq, ne, lt, le, gt, ge]

/-- The number of an operator: its place in `all`. -/
def code : BinaryOp → Nat
  | add => 0
  | sub => 1
  | mul => 2
  | div => 3
  | mod => 4
  | pow => 5
  | concat => 6
  | eq => 7
  | ne => 8
  | lt => 9
  | le => 10
  | gt => 11
  | ge => 12

theorem all_getElem?_code (op : BinaryOp) : all[op.code]? = some op := by
  cases op <;> rfl

def ofSymbol? (s : String) : Option BinaryOp := all.find? (·.symbol == s)

end BinaryOp

/-- The operators that evaluate their right operand only if the left one does not decide. -/
inductive LogicalOp where
  | and | or
deriving DecidableEq, Repr

inductive UnaryOp where
  | not | neg | len
deriving DecidableEq, Repr

/-- The priority of the unary operators. -/
def UnaryOp.priority : Nat := 8

def UnaryOp.ofToken? : Token → Option UnaryOp
  | .keyword .not => some .not
  | .punctuator .minus => some .neg
  | .punctuator .hash => some .len
  | _ => none

/-- Any operator between two operands. -/
inductive InfixOp where
  | binary (op : BinaryOp)
  | logical (op : LogicalOp)
deriving DecidableEq, Repr

namespace InfixOp

/-- The priorities towards the left and the right operand. Concatenation and power bind weaker on
the right, and so group to the right. -/
def priority : InfixOp → Nat × Nat
  | logical .or => (1, 1)
  | logical .and => (2, 2)
  | binary .eq | binary .ne | binary .lt | binary .le | binary .gt | binary .ge => (3, 3)
  | binary .concat => (5, 4)
  | binary .add | binary .sub => (6, 6)
  | binary .mul | binary .div | binary .mod => (7, 7)
  | binary .pow => (10, 9)

def ofToken? : Token → Option InfixOp
  | .keyword .and => some (logical .and)
  | .keyword .or => some (logical .or)
  | .punctuator .plus => some (binary .add)
  | .punctuator .minus => some (binary .sub)
  | .punctuator .star => some (binary .mul)
  | .punctuator .slash => some (binary .div)
  | .punctuator .percent => some (binary .mod)
  | .punctuator .caret => some (binary .pow)
  | .punctuator .concat => some (binary .concat)
  | .punctuator .equal => some (binary .eq)
  | .punctuator .notEqual => some (binary .ne)
  | .punctuator .less => some (binary .lt)
  | .punctuator .lessEqual => some (binary .le)
  | .punctuator .greater => some (binary .gt)
  | .punctuator .greaterEqual => some (binary .ge)
  | _ => none

end InfixOp

end LuaMachine
