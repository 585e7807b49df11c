import LuaMachine.Code.Segment
import LuaMachine.Grammar.Reader
import LuaMachine.Scope

/-!
# Compilation

Parse trees to code. Each construct gives a list of instructions; the state of a compilation
(`Site`) knows the address that the next instruction will have, so that jumps are made with their
targets. A jump whose target is not known yet takes up its place first (`reserve`) and is filled in
when the code behind it is there; the jumps of `break` are filled in at the end of their loop.

An expression leaves one value on the stack, which may be a tuple if the expression is a call or an
ellipsis; `scalarAfter` cuts it down where one value is wanted.
-/

namespace LuaMachine

abbrev Code := List Instruction

/-- How a source text is compiled. -/
structure CompileOptions where
  chunk : String
  source : Nat
  kind : HeaderKind := .chunk
  /-- capture the environment as a variable -/
  env : Bool := true
deriving Repr

/-- The state of a compilation. -/
structure Site where
  /-- the address of the next instruction -/
  address : Nat
  scopes : ScopeStack
  /-- the number of the source -/
  source : Nat
  /-- the addresses of the breaks of each open loop, innermost first -/
  loops : List (List Nat) := []
  /-- the spans that code was attributed to, latest first -/
  spans : List Span := []
  /-- the span of the next instructions -/
  span : Option Span := none

/-- A step of a compilation. -/
abbrev Gen := StateT Site (Except SyntaxFault)

namespace Gen

/-- An instruction at the next address. -/
def emit (op : OpCode) : Gen Code := fun s =>
  .ok ([⟨op, s.span⟩], { s with address := s.address + 1 })

/-- Keep the next address for an instruction that is made later; gives the address and the span. -/
def reserve : Gen (Nat × Option Span) := fun s =>
  .ok ((s.address, s.span), { s with address := s.address + 1 })

def here : Gen Nat := do return (← get).address

def currentSpan : Gen (Option Span) := do return (← get).span

def setSpan (span : Option Span) : Gen Unit := modify fun s => { s with span }

/-- Attribute the next instructions to a span, and list it unless it is the one listed last. -/
def markSpan (span : Span) : Gen Unit := modify fun s =>
  { s with
    spans := if s.spans.head? == some span then s.spans else span :: s.spans
    span := some span }

/-- The span of an extent in the source that is compiled. -/
def spanOf (e : Extent) : Gen Span := do
  return .ofSource (← get).source e.line e.column e.endLine e.endColumn

def markExtent (e : Extent) : Gen Unit := do markSpan (← spanOf e)

/-- Refuse the text at the place that was attributed last. -/
def failHere (cause : SyntaxCause) : Gen α := do
  match (← get).spans with
  | span :: _ => throw { line := span.fromLine, column := span.fromColumn, cause }
  | [] => throw { line := 0, column := 0, cause }

def modifyScopes (f : ScopeStack → ScopeStack) : Gen Unit :=
  modify fun s => { s with scopes := f s.scopes }

def resolve (name : String) : Gen Symbol := fun s =>
  let (symbol, scopes) := s.scopes.resolve name
  .ok (symbol, { s with scopes })

/-- Declare a local and give its slot. -/
def declare (name : String) : Gen Nat := fun s =>
  .ok (s.scopes.nextSlot, { s with scopes := s.scopes.declare name })

/-- Declare names and bind them to the items of the top. -/
def bindNames : List String → Nat → Gen Code
  | [], _ => return []
  | name :: names, i => do
    let slot ← declare name
    let bind ← emit (.local slot i)
    return bind ++ (← bindNames names (i + 1))

/-- Cut the value of an expression down to one. -/
def scalarAfter (e : Expr) : Gen Code :=
  if e.isMultiValue then emit .scalar else return []

def pushLoop : Gen Unit := modify fun s => { s with loops := [] :: s.loops }

/-- Close the innermost loop and give the addresses of its breaks. -/
def popLoop : Gen (List Nat) := fun s => .ok (s.loops.headD [], { s with loops := s.loops.tail })

/-- Redirect the jumps at some addresses of code that starts at `start`. -/
def patch (addresses : List Nat) (target start : Nat) (code : Code) : Code :=
  code.mapIdx fun i ins =>
    if addresses.contains (start + i) then { ins with op := ins.op.withTarget target } else ins

/-- The fields behind the name of a function statement: index all but the last, assign the last. -/
def assignField : List String → Gen Code
  | [] => return []
  | [key] => do
    let k ← emit (.literal (.string key))
    return k ++ (← emit (.indexSet 0))
  | key :: rest => do
    let k ← emit (.literal (.string key))
    let i ← emit .index
    return k ++ i ++ (← assignField rest)

/-- The address and span of an instruction that is filled in now. -/
def fill (slot : Nat × Option Span) (op : OpCode) : Code := [⟨op, slot.2⟩]

mutual

def block : List Stat → Gen Code
  | [] => return []
  | s :: rest => do
    let code ← stat s
    return code ++ (← block rest)

def stat : Stat → Gen Code
  | .local names values extent => do
    markExtent extent
    let vs ← exprs values
    let tuple ← emit (.makeTuple values.length)
    let binds ← bindNames names 0
    return vs ++ tuple ++ binds ++ (← emit (.pop 1))
  | .assign targets values extent => do
    markExtent extent
    let vs ← exprs values
    let tuple ← emit (.makeTuple values.length)
    let stores ← assignTo targets 0
    return vs ++ tuple ++ stores ++ (← emit (.pop 1))
  | .call e extent => do
    markExtent extent
    let code ← expr e
    return code ++ (← emit (.pop 1))
  | .do body extent => do
    markExtent extent
    modifyScopes (·.pushBlock)
    let code ← block body
    modifyScopes (·.popBlock)
    return code
  | .while condition body extent closing => do
    markExtent extent
    let start ← here
    let test ← expr condition
    let one ← scalarAfter condition
    let leave ← reserve
    pushLoop
    modifyScopes (·.pushBlock)
    let inner ← block body
    modifyScopes (·.popBlock)
    markExtent closing
    let back ← emit (.jump start)
    let exit ← here
    let breaks ← popLoop
    return patch breaks exit start (test ++ one ++ fill leave (.jumpIfFalse exit) ++ inner ++ back)
  | .repeat body condition extent => do
    markExtent extent
    let start ← here
    pushLoop
    modifyScopes (·.pushBlock)
    let inner ← block body
    markExtent extent
    let test ← expr condition
    let one ← scalarAfter condition
    let again ← emit (.jumpIfFalse start)
    modifyScopes (·.popBlock)
    let exit ← here
    let breaks ← popLoop
    return patch breaks exit start (inner ++ test ++ one ++ again)
  | .if branches extent => do
    markExtent extent
    let start ← here
    let (code, exits) ← clauses branches
    let exit ← here
    return patch exits exit start code
  | .numericFor var first limit step body extent closing => do
    markExtent extent
    let a ← expr first
    let a' ← scalarAfter first
    let b ← expr limit
    let b' ← scalarAfter limit
    let c ← expr step
    let c' ← scalarAfter step
    let prep ← emit .forPrep
    let loop ← reserve
    pushLoop
    modifyScopes (·.pushBlock)
    let slot ← declare var
    let bind ← emit (.forVar slot)
    let inner ← block body
    modifyScopes (·.popBlock)
    markExtent closing
    let step ← emit .forStep
    let back ← emit (.jump loop.1)
    let exit ← here
    let drop ← emit (.pop 3)
    let breaks ← popLoop
    return a ++ a' ++ b ++ b' ++ c ++ c' ++ prep ++
      patch breaks exit loop.1 (fill loop (.forLoop exit) ++ bind ++ inner ++ step ++ back) ++ drop
  | .genericFor names values body extent closing => do
    markExtent extent
    let vs ← exprs values
    let tuple ← emit (.makeTuple values.length)
    let prep ← emit .iterPrep
    let start ← here
    let copy₁ ← emit (.copy 2)
    let copy₂ ← emit (.copy 2)
    let copy₃ ← emit (.copy 2)
    let call ← emit (.call 2)
    let check ← reserve
    pushLoop
    modifyScopes (·.pushBlock)
    let binds ← bindNames names 0
    let drop ← emit (.pop 1)
    let inner ← block body
    modifyScopes (·.popBlock)
    markExtent closing
    let back ← emit (.jump start)
    let exit ← here
    let drop₃ ← emit (.pop 3)
    let breaks ← popLoop
    return vs ++ tuple ++ prep ++
      patch breaks exit start (copy₁ ++ copy₂ ++ copy₃ ++ call ++ fill check (.iterCheck exit) ++
        binds ++ drop ++ inner ++ back) ++ drop₃
  | .function target keys body extent => do
    markExtent extent
    let f ← function body
    let symbol ← resolve target
    let store ← match keys with
      | [] => emit (.store symbol 0)
      | _ => do
        let object ← emit (.load symbol)
        pure (object ++ (← assignField keys))
    return f ++ store ++ (← emit (.pop 1))
  | .localFunction name body extent => do
    markExtent extent
    let slot ← declare name
    let empty ← emit (.literal .nil)
    let bind ← emit (.local slot 0)
    let drop ← emit (.pop 1)
    let f ← function body
    let store ← emit (.store (.local name slot) 0)
    return empty ++ bind ++ drop ++ f ++ store ++ (← emit (.pop 1))
  | .return values extent => do
    markExtent extent
    let vs ← exprs values
    match values with
    | [] => return vs ++ (← emit (.ret 0))
    | [_] => return vs ++ (← emit (.ret 1))
    | _ =>
      let tuple ← emit (.makeTuple values.length)
      return vs ++ tuple ++ (← emit (.ret 1))
  | .break extent => do
    markExtent extent
    let (address, span) ← reserve
    let s ← get
    match s.loops with
    | breaks :: outer =>
      set { s with loops := (address :: breaks) :: outer }
      return [⟨.jump 0, span⟩]
    | [] => throw { line := extent.line, column := extent.column, cause := .breakOutsideLoop extent.line }

/-- The clauses of an `if`, and the addresses of the jumps to its end. -/
def clauses : Branches → Gen (Code × List Nat)
  | .done => return ([], [])
  | .otherwise body => do
    modifyScopes (·.pushBlock)
    let code ← block body
    modifyScopes (·.popBlock)
    return (code, [])
  | .clause condition body header rest => do
    markExtent header
    let test ← expr condition
    let one ← scalarAfter condition
    let skip ← reserve
    modifyScopes (·.pushBlock)
    let inner ← block body
    modifyScopes (·.popBlock)
    match rest with
    | .done => return (test ++ one ++ fill skip (.jumpIfFalse (← here)) ++ inner, [])
    | rest =>
      let leave ← reserve
      let next ← here
      let (code, exits) ← clauses rest
      return (test ++ one ++ fill skip (.jumpIfFalse next) ++ inner ++ fill leave (.jump 0) ++ code,
        leave.1 :: exits)

/-- Assign the items of the top to the targets, from the left. -/
def assignTo : List Expr → Nat → Gen Code
  | [], _ => return []
  | .name n :: rest, i => do
    let symbol ← resolve n
    let store ← emit (.store symbol i)
    return store ++ (← assignTo rest (i + 1))
  | .index object key :: rest, i => do
    let o ← expr object
    let o' ← scalarAfter object
    let k ← expr key
    let k' ← scalarAfter key
    let store ← emit (.indexSet i)
    return o ++ o' ++ k ++ k' ++ store ++ (← assignTo rest (i + 1))
  | _ :: _, _ => failHere .notAssignable

/-- The code of a function, which control passes over, and the closure made of it. -/
def function : FunctionBody → Gen Code
  | .mk name params isVararg body extent closing => do
    let skip ← reserve
    let outerSpan ← currentSpan
    markSpan (← spanOf extent).nonBreakable
    let header ← reserve
    let begin_ ← reserve
    let args ← emit (.args params.length isVararg)
    modifyScopes (·.pushFunction isVararg)
    for param in params do
      modifyScopes (·.declare param)
    let outerLoops := (← get).loops
    modify fun s => { s with loops := [] }
    let inner ← block body
    modify fun s => { s with loops := outerLoops }
    markExtent closing
    let ret ← emit (.ret 0)
    let scope := (← get).scopes.current
    modifyScopes (·.popFunction)
    let after ← here
    setSpan outerSpan
    let closure ← emit (.closure header.1 scope.captures)
    return fill skip (.jump after) ++ fill header (.header name .function (after - header.1)) ++
      fill begin_ (.beginFn scope.locals) ++ args ++ inner ++ ret ++ closure

/-- Several expressions, each but the last cut down to one value. -/
def exprs : List Expr → Gen Code
  | [] => return []
  | [e] => expr e
  | e :: e' :: rest => do
    let code ← expr e
    let one ← scalarAfter e
    return code ++ one ++ (← exprs (e' :: rest))

def expr : Expr → Gen Code
  | .nil => emit (.literal .nil)
  | .boolean b => emit (.literal (.boolean b))
  | .number n => emit (.literal (.number n))
  | .string s => emit (.literal (.string s))
  | .varargs => do
    if (← get).scopes.current.isVararg then emit .varargs else failHere .varargOutsideFunction
  | .function body => function body
  | .table fs => do
    let new ← emit .newTable
    return new ++ (← fields fs 1)
  | .binary op left right => do
    let l ← expr left
    let l' ← scalarAfter left
    let r ← expr right
    let r' ← scalarAfter right
    return l ++ l' ++ r ++ r' ++ (← emit (.binary op))
  | .logical op left right => do
    let l ← expr left
    let l' ← scalarAfter left
    let jump ← reserve
    let r ← expr right
    let r' ← scalarAfter right
    let exit ← here
    let decide_ := match op with
      | .and => OpCode.jumpFalseOrPop exit
      | .or => .jumpTrueOrPop exit
    return l ++ l' ++ fill jump decide_ ++ r ++ r'
  | .unary op operand => do
    let code ← expr operand
    let one ← scalarAfter operand
    let apply := match op with
      | .not => OpCode.not
      | .neg => .neg
      | .len => .len
    return code ++ one ++ (← emit apply)
  | .name n => do emit (.load (← resolve n))
  | .index object key => do
    let o ← expr object
    let o' ← scalarAfter object
    let k ← expr key
    let k' ← scalarAfter key
    return o ++ o' ++ k ++ k' ++ (← emit .index)
  | .call f args => do
    let code ← expr f
    let one ← scalarAfter f
    let vs ← exprs args
    return code ++ one ++ vs ++ (← emit (.call args.length))
  | .methodCall object method args => do
    let o ← expr object
    let o' ← scalarAfter object
    let m ← emit (.method method)
    let vs ← exprs args
    return o ++ o' ++ m ++ vs ++ (← emit (.call (args.length + 1)))
  | .paren e => do
    let code ← expr e
    return code ++ (← scalarAfter e)

/-- The fields of a table constructor; positional ones count from `position`. The last one takes in
all values of its expression. -/
def fields : List Field → Nat → Gen Code
  | [], _ => return []
  | .positional value :: rest, position => do
    let code ← expr value
    let expand := rest.isEmpty && value.isMultiValue
    let one ← if expand then pure [] else scalarAfter value
    let append ← emit (.tableAppend position expand)
    return code ++ one ++ append ++ (← fields rest (position + 1))
  | .named name value :: rest, position => do
    let key ← emit (.literal (.string name))
    let code ← expr value
    let one ← scalarAfter value
    let set_ ← emit .tableSet
    return key ++ code ++ one ++ set_ ++ (← fields rest position)
  | .keyed key value :: rest, position => do
    let k ← expr key
    let k' ← scalarAfter key
    let code ← expr value
    let one ← scalarAfter value
    let set_ ← emit .tableSet
    return k ++ k' ++ code ++ one ++ set_ ++ (← fields rest position)

end

/-- A whole chunk: header, slots, arguments, block and return. -/
def chunk (name : String) (kind : HeaderKind) (body : Block) : Gen Code := do
  let header ← reserve
  let begin_ ← reserve
  let args ← emit (.args 0 true)
  let inner ← block body
  setSpan none
  let ret ← emit (.ret 0)
  let scope := (← get).scopes.current
  return fill header (.header name kind ((← here) - header.1)) ++
    fill begin_ (.beginFn scope.locals) ++ args ++ inner ++ ret

end Gen

/-- What the compilation of a source gives besides the code. -/
structure CompiledChunk where
  entry : Nat
  block : CodeBlock
  hasEnv : Bool
  /-- the spans that the code is attributed to, in order -/
  spans : List Span
deriving Repr

/-- Compile a parsed chunk for an address; gives the code and the spans. -/
def Block.compile (options : CompileOptions) (base : Nat) (body : Block) :
    Except SyntaxFault (Code × List Span) :=
  let site : Site :=
    { address := base, scopes := .start options.env, source := options.source }
  match (Gen.chunk options.chunk options.kind body).run site with
  | .ok (code, s) => .ok (code, s.spans.reverse)
  | .error e => .error e

/-- Compile a source text and add its code to a segment; a text that is refused adds nothing. -/
def Segment.compile (s : Segment) (options : CompileOptions) (source : String) :
    Except SyntaxError (CompiledChunk × Segment) := do
  let body ← Block.parse options.chunk source
  match body.compile options s.size with
  | .error e => .error { e with chunk := options.chunk }
  | .ok (code, spans) =>
    return ({ entry := s.size, block := s.nextBlock code.length, hasEnv := options.env, spans },
      s.append code)

end LuaMachine
