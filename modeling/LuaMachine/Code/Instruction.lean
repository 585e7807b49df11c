import LuaMachine.Code.Symbol
import LuaMachine.Operator
import LuaMachine.Source.Span
import LuaMachine.Value.Text

/-!
# Instructions

The instructions of the stack machine. Expressions are evaluated on a value stack; local variables
live in the slots of a frame. Jump targets and function entries are absolute addresses.
-/

namespace LuaMachine

/-- What a function header stands for. -/
inductive HeaderKind where
  | chunk | function
deriving DecidableEq, Repr

def HeaderKind.name : HeaderKind → String
  | chunk => "Chunk"
  | function => "Function"

/-- An operation of the machine. -/
inductive OpCode where
  | nop
  /-- the header of a function of `length` instructions, itself included -/
  | header (name : String) (kind : HeaderKind) (length : Nat)
  /-- make the local slots of a frame -/
  | beginFn (locals : List String)
  /-- bind the arguments to the first slots, and keep the others when `varargs` -/
  | args (params : Nat) (varargs : Bool)
  | literal (v : Value)
  | pop (n : Nat)
  /-- push the value `n` below the top again -/
  | copy (n : Nat)
  | load (s : Symbol)
  /-- assign item `index` of the top -/
  | store (s : Symbol) (index : Nat)
  /-- bind a new variable to item `index` of the top -/
  | local (slot index : Nat)
  | closure (entry : Nat) (captures : List Symbol)
  | varargs
  | call (argc : Nat)
  /-- replace an object by its method and itself -/
  | method (name : String)
  | ret (values : Nat)
  | jump (target : Nat)
  | jumpIfFalse (target : Nat)
  /-- jump and keep a false top, or pop it -/
  | jumpFalseOrPop (target : Nat)
  /-- jump and keep a true top, or pop it -/
  | jumpTrueOrPop (target : Nat)
  | binary (op : BinaryOp)
  | not
  | neg
  | len
  | newTable
  /-- set a field of the table below key and value -/
  | tableSet
  /-- set position `index` of the table below the top, and with `expand` the positions after it -/
  | tableAppend (index : Nat) (expand : Bool)
  | index
  /-- assign item `index` of the top to a field of the object below the key -/
  | indexSet (index : Nat)
  | makeTuple (n : Nat)
  | scalar
  /-- turn start, limit and step into numbers -/
  | forPrep
  | forLoop (exit : Nat)
  | forStep
  | forVar (slot : Nat)
  | iterPrep
  | iterCheck (exit : Nat)
deriving Repr, Inhabited

namespace OpCode

def jumpTarget? : OpCode → Option Nat
  | jump t | jumpIfFalse t | jumpFalseOrPop t | jumpTrueOrPop t | forLoop t | iterCheck t => some t
  | _ => none

/-- Redirect a jump; other operations stay. -/
def withTarget (t : Nat) : OpCode → OpCode
  | jump _ => jump t
  | jumpIfFalse _ => jumpIfFalse t
  | jumpFalseOrPop _ => jumpFalseOrPop t
  | jumpTrueOrPop _ => jumpTrueOrPop t
  | forLoop _ => forLoop t
  | iterCheck _ => iterCheck t
  | op => op

/-- Move an operation whose addresses count from zero to a base address. -/
def relocate (base : Nat) : OpCode → OpCode
  | jump t => jump (t + base)
  | jumpIfFalse t => jumpIfFalse (t + base)
  | jumpFalseOrPop t => jumpFalseOrPop (t + base)
  | jumpTrueOrPop t => jumpTrueOrPop (t + base)
  | forLoop t => forLoop (t + base)
  | iterCheck t => iterCheck (t + base)
  | closure entry captures => closure (entry + base) captures
  | op => op

def mnemonic : OpCode → String
  | nop => "NOP"
  | header .. => "META"
  | beginFn .. => "BEGINFN"
  | args .. => "ARGS"
  | literal .. => "LITERAL"
  | pop .. => "POP"
  | copy .. => "COPY"
  | load .. => "LOAD"
  | store .. => "STORE"
  | .local .. => "LOCAL"
  | closure .. => "CLOSURE"
  | varargs => "VARARGS"
  | call .. => "CALL"
  | method .. => "METHOD"
  | ret .. => "RET"
  | jump .. => "JUMP"
  | jumpIfFalse .. => "JF"
  | jumpFalseOrPop .. => "JFORPOP"
  | jumpTrueOrPop .. => "JTORPOP"
  | binary .. => "BINOP"
  | not => "NOT"
  | neg => "NEG"
  | len => "LEN"
  | newTable => "NEWTABLE"
  | tableSet => "TBLSET"
  | tableAppend .. => "TBLAPPEND"
  | index => "INDEX"
  | indexSet .. => "INDEXSET"
  | makeTuple .. => "MKTUPLE"
  | scalar => "SCALAR"
  | forPrep => "FORPREP"
  | forLoop .. => "FORLOOP"
  | forStep => "FORSTEP"
  | forVar .. => "FORVAR"
  | iterPrep => "ITERPREP"
  | iterCheck .. => "ITERCHECK"

/-- The operands as a listing shows them; `none` for an operation that has none. -/
def operands? : OpCode → Option String
  | header n kind length => some s!"{n} {kind.name} len={length}"
  | beginFn locals => some (", ".intercalate locals)
  | args n more => some (toString n ++ if more then " ..." else "")
  | literal (.string s) => some (Text.Quoted.encode s)
  | literal v => some (v.display fun _ => none)
  | pop n | copy n | makeTuple n | call n | ret n => some (toString n)
  | load s => some s.display
  | store s i => some s!"{s.display} [{i}]"
  | .local slot i => some s!"#{slot} [{i}]"
  | closure entry captures =>
    let names := ", ".intercalate (captures.map Symbol.display)
    some s!"{Text.decimalPadded 4 entry} ({names})"
  | method n => some n
  | binary op => some op.symbol
  | tableAppend i expand => some (toString i ++ if expand then " *" else "")
  | indexSet i => some s!"[{i}]"
  | forVar slot => some s!"#{slot}"
  | jump t | jumpIfFalse t | jumpFalseOrPop t | jumpTrueOrPop t | forLoop t | iterCheck t =>
    some (Text.decimalPadded 4 t)
  | nop | varargs | not | neg | len | newTable | tableSet | index | scalar | forPrep | forStep
  | iterPrep => none

/-- The operation as a line of a listing. -/
def display (op : OpCode) : String :=
  match op.operands? with
  | some text => s!"{Text.padRight 10 op.mnemonic} {text}"
  | none => op.mnemonic

end OpCode

/-- An operation and the source text it comes from. -/
structure Instruction where
  op : OpCode
  span : Option Span := none
deriving Repr, Inhabited

end LuaMachine
