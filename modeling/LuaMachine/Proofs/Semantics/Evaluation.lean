import LuaMachine.Grammar.Tree
import LuaMachine.Machine.Fault

/-!
# A big-step semantics without calls

What a chunk does that calls nothing: its expressions are made of literals, local names, parentheses
and operators, its statements are local declarations, assignments to local names, blocks, conditions,
numeric and conditional loops, `break` and `return` (`Block.Plain`). Such a chunk only computes with
values that have no identity (`Datum`), and all its state is in its variables.

Each declaration makes a new variable. An environment says which variable a visible name stands for,
and a store what the variables hold. `Block.evaluate` goes through the tree of the chunk; since a loop
need not end, it is given a bound on the number of passes of each loop.
-/

namespace LuaMachine

/-- A value without an identity. -/
inductive Datum where
  | nil
  | boolean (b : Bool)
  | number (n : Number)
  | string (s : String)
deriving DecidableEq, Repr

namespace Datum

def toValue : Datum → Value
  | nil => .nil
  | boolean b => .boolean b
  | number n => .number n
  | string s => .string s

def typeName : Datum → String
  | nil => "nil"
  | boolean _ => "boolean"
  | number _ => "number"
  | string _ => "string"

/-- Everything but `nil` and `false` is true. -/
def isTruthy : Datum → Bool
  | nil => false
  | boolean b => b
  | _ => true

/-- The number that a value stands for; a text that spells a number does. -/
def toNumber? : Datum → Option Number
  | number n => some n
  | string s => Number.ofText? s
  | _ => none

/-- What concatenation joins. -/
def toText? : Datum → Option String
  | string s => some s
  | number n => some n.format
  | _ => none

def equals : Datum → Datum → Bool
  | nil, nil => true
  | boolean a, boolean b => a == b
  | number a, number b => a.equals b
  | string a, string b => a == b
  | _, _ => false

/-! ## Operators -/

def arithmetic (f : Number → Number → Number) (a b : Datum) : Except Fault Datum :=
  match a.toNumber?, b.toNumber? with
  | some x, some y => .ok (.number (f x y))
  | none, _ => .error (.arithmetic a.typeName)
  | some _, none => .error (.arithmetic b.typeName)

def concat (a b : Datum) : Except Fault Datum :=
  match a.toText?, b.toText? with
  | some x, some y => .ok (.string (x ++ y))
  | none, _ => .error (.concatenate a.typeName)
  | some _, none => .error (.concatenate b.typeName)

def lessThan : Datum → Datum → Except Fault Bool
  | number x, number y => .ok (x.lt y)
  | string x, string y => .ok (x < y)
  | a, b => .error (.compare a.typeName b.typeName)

def lessEqual : Datum → Datum → Except Fault Bool
  | number x, number y => .ok (x.le y)
  | string x, string y => .ok !(y < x)
  | a, b => .error (.compare a.typeName b.typeName)

end Datum

def BinaryOp.apply : BinaryOp → Datum → Datum → Except Fault Datum
  | add, a, b => a.arithmetic .add b
  | sub, a, b => a.arithmetic .sub b
  | mul, a, b => a.arithmetic .mul b
  | div, a, b => a.arithmetic .div b
  | mod, a, b => a.arithmetic .mod b
  | pow, a, b => a.arithmetic .pow b
  | concat, a, b => a.concat b
  | eq, a, b => .ok (.boolean (a.equals b))
  | ne, a, b => .ok (.boolean !(a.equals b))
  | lt, a, b => .boolean <$> a.lessThan b
  | le, a, b => .boolean <$> a.lessEqual b
  | gt, a, b => .boolean <$> b.lessThan a
  | ge, a, b => .boolean <$> b.lessEqual a

def UnaryOp.apply : UnaryOp → Datum → Except Fault Datum
  | not, a => .ok (.boolean !a.isTruthy)
  | neg, a => match a.toNumber? with
    | some x => .ok (.number x.neg)
    | none => .error (.arithmetic a.typeName)
  | len, .string s => .ok (.number (.ofNat s.utf8ByteSize))
  | len, a => .error (.length a.typeName)

/-- Whether the left operand is the result, so that the right one is not evaluated. -/
def LogicalOp.decides : LogicalOp → Datum → Bool
  | and, a => !a.isTruthy
  | or, a => a.isTruthy

/-! ## Variables -/

/-- The variables that the visible names stand for, latest declaration first. -/
abbrev Env := List (String × Nat)

/-- What the variables hold. -/
abbrev Store := List Datum

/-- The variable that a name stands for: that of its latest declaration. -/
def Env.lookup (ρ : Env) (name : String) : Option Nat := (ρ.find? (·.1 == name)).map (·.2)

/-- The value of a name. -/
def Env.read (ρ : Env) (σ : Store) (name : String) : Datum :=
  match ρ.lookup name with
  | some i => σ.getD i .nil
  | none => .nil

/-- Assign to a name. -/
def Env.write (ρ : Env) (σ : Store) (name : String) (d : Datum) : Store :=
  match ρ.lookup name with
  | some i => σ.set i d
  | none => σ

/-- Declare names from the left, each as a new variable; values that are missing are `nil`. -/
def Env.declare : Env → Store → List String → List Datum → Env × Store
  | ρ, σ, [], _ => (ρ, σ)
  | ρ, σ, name :: names, ds =>
    Env.declare ((name, σ.length) :: ρ) (σ ++ [ds.headD .nil]) names ds.tail

/-- Assign to names from the left; values that are missing are `nil`. -/
def Env.assign (ρ : Env) : Store → List Expr → List Datum → Store
  | σ, .name n :: targets, ds => Env.assign ρ (ρ.write σ n (ds.headD .nil)) targets ds.tail
  | σ, _, _ => σ

/-! ## Expressions -/

/-- The value of an expression. Expressions that are not plain get no meaning here. -/
def Expr.evaluate (ρ : Env) (σ : Store) : Expr → Except Fault Datum
  | nil => .ok .nil
  | boolean b => .ok (.boolean b)
  | number n => .ok (.number n)
  | string s => .ok (.string s)
  | name n => .ok (ρ.read σ n)
  | paren e => e.evaluate ρ σ
  | unary op e => do
    let a ← e.evaluate ρ σ
    op.apply a
  | binary op left right => do
    let a ← left.evaluate ρ σ
    let b ← right.evaluate ρ σ
    op.apply a b
  | logical op left right => do
    let a ← left.evaluate ρ σ
    if op.decides a then return a else right.evaluate ρ σ
  | _ => .ok .nil

/-- The values of expressions, from the left. -/
def Expr.evaluateAll (ρ : Env) (σ : Store) : List Expr → Except Fault (List Datum)
  | [] => .ok []
  | e :: es => do
    let d ← e.evaluate ρ σ
    let ds ← Expr.evaluateAll ρ σ es
    return d :: ds

/-! ## Statements -/

/-- How statements end. -/
inductive Completion where
  | normal (ρ : Env) (σ : Store)
  /-- the innermost loop is left -/
  | broke (σ : Store)
  | returned (ds : List Datum)
  | failed (f : Fault)
  /-- the bound on the passes of a loop was reached -/
  | unfinished

/-- At the end of a block the names declared in it are no longer visible. -/
def Completion.leaving (ρ : Env) : Completion → Completion
  | normal _ σ => normal ρ σ
  | c => c

/-- Statements one after the other. -/
def Completion.andThen (next : Env → Store → Completion) : Completion → Completion
  | normal ρ σ => next ρ σ
  | c => c

/-- What one pass of a loop comes to. -/
inductive Pass (α : Type) where
  | again (a : α)
  | done (c : Completion)

/-- A `break` in the body of a loop ends the loop; at the end of the body `next` says what comes of
the pass. -/
def Completion.pass {α : Type} (ρ : Env) (next : Env → Store → Pass α) : Completion → Pass α
  | normal ρ' σ => next ρ' σ
  | broke σ => .done (normal ρ σ)
  | c => .done c

/-- A loop, with a bound on the number of its passes. -/
def iterate {α : Type} (pass : α → Pass α) : Nat → α → Completion
  | 0, _ => .unfinished
  | n + 1, a => match pass a with
    | .again a => iterate pass n a
    | .done c => c

/-- One of the numbers that control a loop. -/
def Datum.control (d : Datum) (what : String) : Except Fault Number :=
  match d.toNumber? with
  | some n => .ok n
  | none => .error (.loopNumber what)

/-- The first value, the limit and the step of a numeric loop. -/
def Datum.controls (first limit step : Datum) : Except Fault (Number × Number × Number) := do
  return (← first.control "initial value", ← limit.control "limit", ← step.control "step")

@[inherit_doc Datum.controls]
def Expr.bounds (ρ : Env) (σ : Store) (first limit step : Expr) :
    Except Fault (Number × Number × Number) := do
  let a ← first.evaluate ρ σ
  let b ← limit.evaluate ρ σ
  let c ← step.evaluate ρ σ
  Datum.controls a b c

/-- A numeric loop is over when its value is beyond the limit. -/
def Number.beyond (value limit step : Number) : Bool :=
  (Number.zero.lt step && limit.lt value) || (step.le .zero && value.lt limit)

mutual

def Block.execute (n : Nat) : List Stat → Env → Store → Completion
  | [], ρ, σ => .normal ρ σ
  | s :: rest, ρ, σ => (Stat.execute n s ρ σ).andThen (Block.execute n rest)

/-- Carry out a statement. Statements that are not plain get no meaning here. -/
def Stat.execute (n : Nat) : Stat → Env → Store → Completion
  | .local names values _, ρ, σ => match Expr.evaluateAll ρ σ values with
    | .ok ds => .normal (ρ.declare σ names ds).1 (ρ.declare σ names ds).2
    | .error f => .failed f
  | .assign targets values _, ρ, σ => match Expr.evaluateAll ρ σ values with
    | .ok ds => .normal ρ (ρ.assign σ targets ds)
    | .error f => .failed f
  | .do body _, ρ, σ => (Block.execute n body ρ σ).leaving ρ
  | .while condition body _ _, ρ, σ =>
    iterate (fun σ => match condition.evaluate ρ σ with
      | .error f => .done (.failed f)
      | .ok d =>
        if d.isTruthy then (Block.execute n body ρ σ).pass ρ fun _ σ => .again σ
        else .done (.normal ρ σ)) n σ
  | .repeat body condition _, ρ, σ =>
    iterate (fun σ => (Block.execute n body ρ σ).pass ρ fun ρ' σ =>
      match condition.evaluate ρ' σ with
      | .error f => .done (.failed f)
      | .ok d => if d.isTruthy then .done (.normal ρ σ) else .again σ) n σ
  | .if branches _, ρ, σ => Branches.execute n branches ρ σ
  | .numericFor var first limit step body _ _, ρ, σ => match Expr.bounds ρ σ first limit step with
    | .error f => .failed f
    | .ok (first, limit, step) =>
      iterate (fun (value, σ) =>
        if value.beyond limit step then .done (.normal ρ σ)
        else (Block.execute n body ((var, σ.length) :: ρ) (σ ++ [.number value])).pass ρ fun _ σ =>
          .again (value.add step, σ)) n (first, σ)
  | .return values _, ρ, σ => match Expr.evaluateAll ρ σ values with
    | .ok ds => .returned ds
    | .error f => .failed f
  | .break _, _, σ => .broke σ
  | _, _, _ => .unfinished

def Branches.execute (n : Nat) : Branches → Env → Store → Completion
  | .done, ρ, σ => .normal ρ σ
  | .otherwise body, ρ, σ => (Block.execute n body ρ σ).leaving ρ
  | .clause condition body _ rest, ρ, σ => match condition.evaluate ρ σ with
    | .error f => .failed f
    | .ok d =>
      if d.isTruthy then (Block.execute n body ρ σ).leaving ρ else Branches.execute n rest ρ σ

end

@[simp] theorem Block.execute_nil (n : Nat) (ρ : Env) (σ : Store) :
    Block.execute n [] ρ σ = .normal ρ σ := by
  rw [Block.execute]

@[simp] theorem Stat.execute_break (n : Nat) (extent : Extent) (ρ : Env) (σ : Store) :
    Stat.execute n (.break extent) ρ σ = .broke σ := by
  rw [Stat.execute]

@[simp] theorem Branches.execute_done (n : Nat) (ρ : Env) (σ : Store) :
    Branches.execute n .done ρ σ = .normal ρ σ := by
  rw [Branches.execute]

/-- What comes of a chunk. -/
inductive ChunkOutcome where
  | returned (ds : List Datum)
  | failed (f : Fault)
deriving DecidableEq, Repr

/-- What comes of a chunk in which no loop makes more than `n` passes; a chunk that comes to its end
returns nothing. -/
def Block.evaluate (n : Nat) (body : Block) : Option ChunkOutcome :=
  match Block.execute n body [] [] with
  | .normal _ _ => some (.returned [])
  | .returned ds => some (.returned ds)
  | .failed f => some (.failed f)
  | .broke _ | .unfinished => none

/-! ## The fragment -/

/-- An expression without calls, over visible names. -/
def Expr.Plain (names : List String) : Expr → Prop
  | nil | boolean _ | number _ | string _ => True
  | name n => n ∈ names
  | paren e => e.Plain names
  | unary _ e => e.Plain names
  | binary _ left right => left.Plain names ∧ right.Plain names
  | logical _ left right => left.Plain names ∧ right.Plain names
  | _ => False

/-- An assignment goes to a visible name. -/
def Expr.PlainTarget (names : List String) : Expr → Prop
  | name n => n ∈ names
  | _ => False

/-- The visible names after a statement. -/
def Stat.namesAfter (names : List String) : Stat → List String
  | .local declared _ _ => declared.reverse ++ names
  | _ => names

/-- The visible names at the end of a block. -/
def Block.namesAfter (names : List String) (body : Block) : List String :=
  body.foldl Stat.namesAfter names

mutual

/-- A block without calls, over visible names. -/
def Block.Plain (names : List String) : List Stat → Prop
  | [] => True
  | s :: rest => Stat.Plain names s ∧ Block.Plain (s.namesAfter names) rest

def Stat.Plain (names : List String) : Stat → Prop
  | .local _ values _ => ∀ e ∈ values, e.Plain names
  | .assign targets values _ =>
    (∀ e ∈ targets, e.PlainTarget names) ∧ ∀ e ∈ values, e.Plain names
  | .do body _ => Block.Plain names body
  | .while condition body _ _ => condition.Plain names ∧ Block.Plain names body
  | .repeat body condition _ =>
    Block.Plain names body ∧ condition.Plain (Block.namesAfter names body)
  | .if branches _ => Branches.Plain names branches
  | .numericFor var first limit step body _ _ =>
    first.Plain names ∧ limit.Plain names ∧ step.Plain names ∧ Block.Plain (var :: names) body
  | .return values _ => ∀ e ∈ values, e.Plain names
  | .break _ => True
  | _ => False

def Branches.Plain (names : List String) : Branches → Prop
  | .done => True
  | .otherwise body => Block.Plain names body
  | .clause condition body _ rest =>
    condition.Plain names ∧ Block.Plain names body ∧ Branches.Plain names rest

end

/-! Whether a block is plain can be computed. -/

instance Expr.decidablePlain (names : List String) : (e : Expr) → Decidable (e.Plain names)
  | nil | boolean _ | number _ | string _ => .isTrue trivial
  | name n => inferInstanceAs (Decidable (n ∈ names))
  | paren e => e.decidablePlain names
  | unary _ e => e.decidablePlain names
  | binary _ left right | logical _ left right =>
    @instDecidableAnd _ _ (left.decidablePlain names) (right.decidablePlain names)
  | varargs | function _ | table _ | index .. | call .. | methodCall .. => .isFalse id

instance Expr.decidablePlainTarget (names : List String) :
    (e : Expr) → Decidable (e.PlainTarget names)
  | name n => inferInstanceAs (Decidable (n ∈ names))
  | nil | boolean _ | number _ | string _ | varargs | function _ | table _ | paren _ | unary ..
  | binary .. | logical .. | index .. | call .. | methodCall .. => .isFalse id

mutual

instance Block.decidablePlain (names : List String) :
    (body : List Stat) → Decidable (Block.Plain names body)
  | [] => .isTrue trivial
  | s :: rest =>
    @instDecidableAnd _ _ (s.decidablePlain names) (Block.decidablePlain (s.namesAfter names) rest)

instance Stat.decidablePlain (names : List String) : (s : Stat) → Decidable (s.Plain names)
  | .local _ values _ => inferInstanceAs (Decidable (∀ e ∈ values, e.Plain names))
  | .assign targets values _ => inferInstanceAs
    (Decidable ((∀ e ∈ targets, e.PlainTarget names) ∧ ∀ e ∈ values, e.Plain names))
  | .do body _ => Block.decidablePlain names body
  | .while condition body _ _ =>
    @instDecidableAnd _ _ (condition.decidablePlain names) (Block.decidablePlain names body)
  | .repeat body condition _ =>
    @instDecidableAnd _ _ (Block.decidablePlain names body)
      (condition.decidablePlain (Block.namesAfter names body))
  | .if branches _ => branches.decidablePlain names
  | .numericFor var first limit step body _ _ =>
    @instDecidableAnd _ _ (first.decidablePlain names) <|
      @instDecidableAnd _ _ (limit.decidablePlain names) <|
        @instDecidableAnd _ _ (step.decidablePlain names) (Block.decidablePlain (var :: names) body)
  | .return values _ => inferInstanceAs (Decidable (∀ e ∈ values, e.Plain names))
  | .break _ => .isTrue trivial
  | .call .. | .genericFor .. | .function .. | .localFunction .. => .isFalse id

instance Branches.decidablePlain (names : List String) :
    (branches : Branches) → Decidable (branches.Plain names)
  | .done => .isTrue trivial
  | .otherwise body => Block.decidablePlain names body
  | .clause condition body _ rest =>
    @instDecidableAnd _ _ (condition.decidablePlain names) <|
      @instDecidableAnd _ _ (Block.decidablePlain names body) (rest.decidablePlain names)

end

end LuaMachine
