import LuaMachine.Dump.Codec
import LuaMachine.Code.Segment

/-!
# Dumps of functions

A dump holds one function: the instructions from its header to the end of its body, with addresses
counted from the header. Reading a dump appends them to a segment and moves the addresses to where
they come to lie; the source they are attributed to is the reader's choice.
-/

namespace LuaMachine.Dump

/-- The first bytes of every dump. -/
def magic : List UInt8 := [0x1b, 0x4c, 0x4e, 0x54]

/-- The version of the format. -/
def version : UInt8 := 1

def isDump (bytes : List UInt8) : Bool := magic.isPrefixOf bytes

/-! ## Writing -/

/-- An address as counted from the header; it must not lie outside the function. -/
def relative (entry length address : Nat) : Write Nat :=
  if entry ≤ address && address - entry ≤ length then return address - entry
  else throw (.malformed s!"address {address} lies outside the dumped function")

def writeLiteral : Value → Write Unit
  | .nil => .u8 0
  | .boolean false => .u8 1
  | .boolean true => .u8 2
  | .number n => do .u8 3; .number n
  | .string s => do .u8 4; .string s
  | v => throw (.malformed s!"literal of type {v.typeName} cannot be dumped")

def writeSymbol : Symbol → Write Unit
  | .local name slot => do .u8 0; .string name; .nat slot
  | .upvalue name i => do .u8 1; .string name; .nat i
  | .global name env => do .u8 2; .string name; writeSymbol env
  | .defaultEnv => .u8 3

def writeSpan : Option Span → Write Unit
  | none => .bool false
  | some s => do
    .bool true
    .nat s.fromLine
    .nat s.fromColumn
    .nat s.toLine
    .nat s.toColumn
    .u8 ((if s.isStepStop then 1 else 0) + (if s.noBreakpoint then 2 else 0))

/-- An operation of the function of `length` instructions at `entry`. -/
def writeOp (entry length : Nat) (op : OpCode) : Write Unit := do
  let address (a : Nat) : Write Unit := do .nat (← relative entry length a)
  match op with
  | .nop => .u8 0
  | .header name kind n =>
    .u8 1; .string name; .u8 (match kind with | .chunk => 0 | .function => 1); .nat n
  | .beginFn locals => .u8 2; .nat locals.length; .each .string locals
  | .args params varargs => .u8 3; .nat params; .bool varargs
  | .literal v => .u8 4; writeLiteral v
  | .pop n => .u8 5; .nat n
  | .copy n => .u8 6; .nat n
  | .load s => .u8 7; writeSymbol s
  | .store s i => .u8 8; writeSymbol s; .nat i
  | .local slot i => .u8 9; .nat slot; .nat i
  | .closure target captures =>
    .u8 10; address target; .nat captures.length; .each writeSymbol captures
  | .varargs => .u8 11
  | .call argc => .u8 12; .nat argc
  | .method name => .u8 13; .string name
  | .ret n => .u8 14; .nat n
  | .jump t => .u8 15; address t
  | .jumpIfFalse t => .u8 16; address t
  | .jumpFalseOrPop t => .u8 17; address t
  | .jumpTrueOrPop t => .u8 18; address t
  | .binary op => .u8 19; .nat op.code
  | .not => .u8 20
  | .neg => .u8 21
  | .len => .u8 22
  | .newTable => .u8 23
  | .tableSet => .u8 24
  | .tableAppend i expand => .u8 25; .nat i; .bool expand
  | .index => .u8 26
  | .indexSet i => .u8 27; .nat i
  | .makeTuple n => .u8 28; .nat n
  | .scalar => .u8 29
  | .forPrep => .u8 30
  | .forLoop exit => .u8 31; address exit
  | .forStep => .u8 32
  | .forVar slot => .u8 33; .nat slot
  | .iterPrep => .u8 34
  | .iterCheck exit => .u8 35; address exit

def writeInstruction (entry length : Nat) (i : Instruction) : Write Unit := do
  writeOp entry length i.op
  writeSpan i.span

/-- The dump of a function whose instructions are `body`. -/
def writeFunction (entry : Nat) (hasEnv : Bool) (body : List Instruction) : Write Unit := do
  .bytes magic
  .u8 version
  .bool hasEnv
  .nat body.length
  .each (writeInstruction entry body.length) body

/-- The dump of the function whose header stands at an address. -/
def ofFunction (code : Segment) (entry : Nat) (hasEnv : Bool) : Except DumpError (List UInt8) := do
  let some block := code.blockAt? entry
    | throw (.malformed s!"no code at address {entry}")
  match code.instruction? entry with
  | some ⟨.header _ _ length, _⟩ =>
    let some body := code.range? block entry length
      | throw (.malformed "function body is truncated")
    return (← (writeFunction entry hasEnv body).run {}).2.bytes.toList
  | _ => throw (.malformed "function header not found")

/-! ## Reading -/

def readLiteral : Read Value := do
  match ← .u8 with
  | 0 => return .nil
  | 1 => return .boolean false
  | 2 => return .boolean true
  | 3 => return .number (← .number)
  | 4 => return .string (← .string)
  | tag => throw (.invalidTag tag)

/-- A symbol; each environment around a name takes at least a byte, so the number of bytes is `fuel`
enough. -/
def readSymbolWithin : Nat → Read Symbol
  | 0 => throw .unexpectedEof
  | fuel + 1 => do
    match ← .u8 with
    | 0 => return .local (← .string) (← .nat)
    | 1 => return .upvalue (← .string) (← .nat)
    | 2 =>
      let name ← .string
      return .global name (← readSymbolWithin fuel)
    | 3 => return .defaultEnv
    | tag => throw (.invalidTag tag)

def readSymbol : Read Symbol := do readSymbolWithin ((← get).bytes.length + 1)

def readSpan (source : Nat) : Read (Option Span) := do
  if !(← .bool) then return none
  let fromLine ← .nat
  let fromColumn ← .nat
  let toLine ← .nat
  let toColumn ← .nat
  let flags ← .u8
  return some
    { Span.ofSource source fromLine fromColumn toLine toColumn with
      isStepStop := flags &&& 1 != 0, noBreakpoint := flags &&& 2 != 0 }

/-- An address counted from the header of a function of `length` instructions. -/
def readAddress (length : Nat) : Read Nat := do
  let a ← .nat
  if a ≤ length then return a
  else throw (.malformed s!"address {a} lies outside the dumped function")

def readOp (length : Nat) : Read OpCode := do
  match ← .u8 with
  | 0 => return .nop
  | 1 =>
    let name ← .string
    let kind ← match ← Read.u8 with
      | 0 => pure HeaderKind.chunk
      | 1 => pure .function
      | tag => throw (.invalidTag tag)
    return .header name kind (← .nat)
  | 2 => return .beginFn (← Read.each .string (← Read.nat))
  | 3 => return .args (← .nat) (← .bool)
  | 4 => return .literal (← readLiteral)
  | 5 => return .pop (← .nat)
  | 6 => return .copy (← .nat)
  | 7 => return .load (← readSymbol)
  | 8 => return .store (← readSymbol) (← .nat)
  | 9 => return .local (← .nat) (← .nat)
  | 10 =>
    let entry ← readAddress length
    return .closure entry (← Read.each readSymbol (← Read.nat))
  | 11 => return .varargs
  | 12 => return .call (← .nat)
  | 13 => return .method (← .string)
  | 14 => return .ret (← .nat)
  | 15 => return .jump (← readAddress length)
  | 16 => return .jumpIfFalse (← readAddress length)
  | 17 => return .jumpFalseOrPop (← readAddress length)
  | 18 => return .jumpTrueOrPop (← readAddress length)
  | 19 =>
    let i ← Read.nat
    match BinaryOp.all[i]? with
    | some op => return .binary op
    | none => throw (.invalidTag i.toUInt8)
  | 20 => return .not
  | 21 => return .neg
  | 22 => return .len
  | 23 => return .newTable
  | 24 => return .tableSet
  | 25 => return .tableAppend (← .nat) (← .bool)
  | 26 => return .index
  | 27 => return .indexSet (← .nat)
  | 28 => return .makeTuple (← .nat)
  | 29 => return .scalar
  | 30 => return .forPrep
  | 31 => return .forLoop (← readAddress length)
  | 32 => return .forStep
  | 33 => return .forVar (← .nat)
  | 34 => return .iterPrep
  | 35 => return .iterCheck (← readAddress length)
  | tag => throw (.invalidOpcode tag)

def readInstruction (source length : Nat) : Read Instruction := do
  let op ← readOp length
  return ⟨op, ← readSpan source⟩

/-- The header of a dump: its first bytes and its version. -/
def readMagic : Read Unit := do
  match ← (tryCatch (some <$> Read.bytes 4) fun _ => pure none) with
  | some bs => if bs != magic then throw .badHeader
  | none => throw .badHeader
  let found ← Read.u8
  if found != version then throw (.versionMismatch found version)

/-- What a dump holds: whether the function captures its environment, and its instructions, with
addresses counted from the header. -/
def readFunction (source : Nat) : Read (Bool × List Instruction) := do
  readMagic
  let hasEnv ← Read.bool
  let length ← Read.nat
  return (hasEnv, ← Read.each (readInstruction source length) length)

end LuaMachine.Dump

namespace LuaMachine

/-- A function read from a dump. -/
structure Undumped where
  entry : Nat
  block : CodeBlock
  name : String
  hasEnv : Bool
  spans : List Span
deriving Repr

/-- Append the function of a dump to a segment; a dump that is refused adds nothing. -/
def Segment.undump (code : Segment) (bytes : List UInt8) (source : Nat) :
    Except DumpError (Undumped × Segment) :=
  match (Dump.readFunction source).run { bytes } with
  | .error e _ => .error e
  | .ok (hasEnv, body) _ =>
    match body with
    | ⟨.header name _ _, _⟩ :: _ =>
      .ok
        ({ entry := code.size, block := code.nextBlock body.length, name, hasEnv
           spans := body.filterMap (·.span) },
         code.append (body.map fun i => { i with op := i.op.relocate code.size }))
    | _ => .error (.malformed "function header not found")

end LuaMachine
