import LuaMachine.Operator

/-!
# Parse trees

Expressions and statements as the grammar reads them. Every statement carries the extent that its
instructions are attributed to; loops and functions also carry that of their closing word.
-/

namespace LuaMachine

mutual

/-- An expression. -/
inductive Expr where
  | nil
  | boolean (b : Bool)
  | number (n : Number)
  | string (s : String)
  | varargs
  | function (body : FunctionBody)
  | table (fields : List Field)
  | binary (op : BinaryOp) (left right : Expr)
  | logical (op : LogicalOp) (left right : Expr)
  | unary (op : UnaryOp) (operand : Expr)
  | name (n : String)
  | index (object key : Expr)
  | call (function : Expr) (args : List Expr)
  | methodCall (object : Expr) (method : String) (args : List Expr)
  | paren (e : Expr)

/-- A field of a table constructor. -/
inductive Field where
  | positional (value : Expr)
  | named (name : String) (value : Expr)
  | keyed (key value : Expr)

/-- A function: its name in traces, its parameters and its block. `extent` covers the head and
`closing` the final word. -/
inductive FunctionBody where
  | mk (name : String) (params : List String) (isVararg : Bool) (body : List Stat)
      (extent closing : Extent)

/-- What follows the condition of an `if`: further clauses, an `else` block or nothing. -/
inductive Branches where
  | done
  | otherwise (body : List Stat)
  | clause (condition : Expr) (body : List Stat) (header : Extent) (rest : Branches)

/-- A statement. -/
inductive Stat where
  | local (names : List String) (values : List Expr) (extent : Extent)
  | assign (targets : List Expr) (values : List Expr) (extent : Extent)
  | call (call : Expr) (extent : Extent)
  | do (body : List Stat) (extent : Extent)
  | while (condition : Expr) (body : List Stat) (extent closing : Extent)
  | repeat (body : List Stat) (condition : Expr) (extent : Extent)
  | if (branches : Branches) (extent : Extent)
  /-- a loop over numbers; without a step in the text the step is one -/
  | numericFor (var : String) (start limit step : Expr) (body : List Stat) (extent closing : Extent)
  | genericFor (names : List String) (values : List Expr) (body : List Stat)
      (extent closing : Extent)
  /-- assign a function to a name, or to the field of it that `keys` leads to -/
  | function (target : String) (keys : List String) (body : FunctionBody) (extent : Extent)
  | localFunction (name : String) (body : FunctionBody) (extent : Extent)
  | return (values : List Expr) (extent : Extent)
  | break (extent : Extent)

end

instance : Inhabited Expr := ⟨.nil⟩

/-- A sequence of statements. -/
abbrev Block := List Stat

namespace Expr

/-- True of the expressions that may give any number of values. -/
def isMultiValue : Expr → Bool
  | call .. | methodCall .. | varargs => true
  | _ => false

/-- True of the expressions that an assignment can have on its left. -/
def isAssignable : Expr → Bool
  | name _ | index .. => true
  | _ => false

def isCall : Expr → Bool
  | call .. | methodCall .. => true
  | _ => false

/-- Apply a unary operator; the negative of a numeral is a numeral. -/
def ofUnary : UnaryOp → Expr → Expr
  | .neg, number n => number n.neg
  | op, e => unary op e

def ofInfix : InfixOp → Expr → Expr → Expr
  | .binary op, l, r => binary op l r
  | .logical op, l, r => logical op l r

end Expr

def FunctionBody.extent : FunctionBody → Extent
  | mk _ _ _ _ e _ => e

def Stat.extent : Stat → Extent
  | .local _ _ e | .assign _ _ e | .call _ e | .do _ e | .while _ _ e _ | .repeat _ _ e | .if _ e
  | .numericFor _ _ _ _ _ e _ | .genericFor _ _ _ e _ | .function _ _ _ e | .localFunction _ _ e
  | .return _ e | .break e => e

end LuaMachine
