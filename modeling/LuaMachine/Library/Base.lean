import LuaMachine.Library.Coroutines
import LuaMachine.Script.Load

/-!
# The base library

What the functions in the global table of every script do.
-/

namespace LuaMachine

/-- The version that scripts see. -/
def versionText : String := "Lantern Lua 5.2"

/-- A bound on the steps of one loop of the machine. -/
def stepLimit : Nat := 0x4000000000000000

namespace Library

open Exec

/-- Reduce an integer to 64 bits with sign. -/
def wrapInteger (n : Int) : Int := Int.bmod n 0x10000000000000000

/-! ## Texts and numbers -/

/-- The text of a value, which a `__tostring` handler may give. -/
def textOf (r : Reentry) (v : Value) : Exec String := do
  match ← metamethod? v "__tostring" with
  | some handler => match (← r.call handler [v]).scalar with
    | .string s => return s
    | .number n => return n.format
    | _ => fail .tostringResult
  | none => return (← heap).display v.scalar

def print (r : Reentry) (args : Arguments) : Exec Value := do
  let texts ← args.values.mapM (textOf r)
  Exec.print ("\t".intercalate texts)
  return .void

/-- The value of a digit in bases up to 36. -/
def digitIn? (base : Nat) (c : Char) : Option Nat :=
  let value? :=
    if '0' ≤ c && c ≤ '9' then some (c.toNat - '0'.toNat)
    else if 'a' ≤ c && c ≤ 'z' then some (c.toNat - 'a'.toNat + 10)
    else if 'A' ≤ c && c ≤ 'Z' then some (c.toNat - 'A'.toNat + 10)
    else none
  value?.filter (· < base)

/-- The value of digits in a base; there has to be one at least. -/
def digitsIn? (base : Nat) : List Char → Option Nat
  | [] => none
  | cs => cs.foldlM (fun n c => (digitIn? base c).map (n * base + ·)) 0

/-- An integer of 64 bits in a base, with an optional sign. -/
def integerIn? (base : Nat) (cs : List Char) : Option Int :=
  let n? : Option Int := match cs with
    | '-' :: ds => (digitsIn? base ds).map fun n => -(n : Int)
    | '+' :: ds => (digitsIn? base ds).map Int.ofNat
    | ds => (digitsIn? base ds).map Int.ofNat
  n?.filter fun n => Number.minInteger ≤ n && n ≤ Number.maxInteger

/-- Read a number in a base. A minus sign is taken off first, and what follows may have a sign of
its own. -/
def numberIn? (base : Nat) (s : String) : Option Number :=
  match Text.trimBlanks s.toList with
  | '-' :: ds => (integerIn? base ds).map fun n => (Number.ofInt n).neg
  | ds => (integerIn? base ds).map Number.ofInt

def tonumber (args : Arguments) : Exec Value := do
  let v ← args.any 0 "tonumber"
  if (args.get 1).isNil then
    match v with
    | .number _ => return v
    | .string s => return ((Number.ofText? s).map Value.number).getD .nil
    | _ => return .nil
  let base ← args.integer 1 "tonumber"
  if base < 2 || base > 36 then fail (.argumentOf 2 "tonumber" "base out of range")
  let text ← args.string 0 "tonumber"
  return ((numberIn? base.toNat text).map Value.number).getD .nil

/-! ## Traversal -/

def next (args : Arguments) : Exec Value := do
  let id ← args.table 0 "next"
  match ((← heap).table id).next (args.get 1) with
  | .ok (some (k, v)) => return .ofList [k, v]
  | .ok none => return .nil
  | .error e => fail (.table e)

def pairs (r : Reentry) (args : Arguments) : Exec Value := do
  let v ← args.any 0 "pairs"
  match ← metamethod? v "__pairs" with
  | some handler =>
    let result ← r.call handler [v]
    return .ofList [result.nth 0, result.nth 1, result.nth 2]
  | none =>
    let id ← args.table 0 "pairs"
    return .ofList [← newCallback (.builtin .next), .table id, .nil]

def ipairs (args : Arguments) : Exec Value := do
  let id ← args.table 0 "ipairs"
  return .ofList [← newCallback (.builtin .ipairsStep), .table id, .ofNat 0]

/-- The next position of a sequence and its value, or `nil` after the last. -/
def ipairsStep (args : Arguments) : Exec Value := do
  let id ← args.table 0 "ipairs"
  let i : Value := .ofInt (wrapInteger ((← args.integer 1 "ipairs") + 1))
  let v := (← heap).getIndex id i
  if v.isNil then return .nil
  return .ofList [i, v]

/-! ## Lists of values -/

/-- The arguments from a position on, counted from the end when negative, or their number. -/
def select (args : Arguments) : Exec Value := do
  let selector ← args.any 0 "select"
  let rest := (args.skip 1).values
  if selector.asString? == some "#" then return .ofNat rest.length
  match selector.toInteger? with
  | none => fail (.badArgument 1 "select" "number" selector.typeName)
  | some n =>
    if n > 0 then return .ofList (rest.drop (n - 1).toNat)
    else if n < 0 && wrapInteger (-n) ≤ rest.length then
      return .ofList (rest.drop ((rest.length + n) % 0x10000000000000000).toNat)
    else fail (.argumentOf 1 "select" "index out of range")

/-- The most values that one call may unpack. -/
def maxUnpacked : Int := 1000000

def unpack (args : Arguments) : Exec Value := do
  let id ← args.table 0 "unpack"
  let first := (← args.numberD 1 "unpack" .one).toInteger
  let t := (← heap).table id
  let last ← match args.get 2 with
    | .nil => pure (t.length : Int)
    | _ => args.integer 2 "unpack"
  if first > last then return .void
  if last - first + 1 > maxUnpacked then fail .tooManyResults
  return .ofList ((List.range (last - first + 1).toNat).map fun (i : Nat) =>
    t.get (.ofInt (first + i)))

/-! ## Errors -/

/-- Raise a value. A text gets the place of the call in front of it, unless the level is zero; no
other place is added later. -/
def error (caller : Option Span) (args : Arguments) : Exec Value := do
  let level ← args.numberD 1 "error" .one
  let e := RuntimeError.ofValue (args.get 0)
  let e ← match e.value, caller with
    | .string _, some span =>
      if Number.lt .zero level then pure (e.decorate none ((← script).formatLocation span))
      else pure e
    | _, _ => pure e
  failWith (.runtime { e with decorated := e.decorated.getD e.message })

def assert (args : Arguments) : Exec Value := do
  if (args.get 0).isTruthy then return .ofList args.values
  match args.get 1 with
  | .nil => fail .assertion
  | message => failWith (.runtime (.ofValue message))

def pcall (r : Reentry) (args : Arguments) : Exec Value := do
  let f ← args.any 0 "pcall"
  protect (r.call f (args.skip 1).values)

/-! ## Raw access and metatables -/

def rawget (args : Arguments) : Exec Value := do
  let id ← args.table 0 "rawget"
  return (← heap).getIndex id (args.get 1)

def rawset (args : Arguments) : Exec Value := do
  let id ← args.table 0 "rawset"
  setIndex id (args.get 1) (args.get 2)
  return .table id

def rawequal (args : Arguments) : Exec Value := do
  let a ← args.any 0 "rawequal"
  let b ← args.any 1 "rawequal"
  return .boolean (a.rawEquals b)

def rawlen (args : Arguments) : Exec Value := do
  match args.get 0 with
  | .table id => return .ofNat ((← heap).table id).length
  | .string s => return .ofNat s.utf8ByteSize
  | _ => fail .tableOrString

/-- The field that protects a metatable. -/
def protection (h : Heap) (id : TableId) : Value :=
  match (h.table id).metatable with
  | some mt => h.getField mt "__metatable"
  | none => .nil

def setmetatable (args : Arguments) : Exec Value := do
  let id ← args.table 0 "setmetatable"
  let metatable ← match args.get 1 with
    | .nil => pure none
    | .table mt => pure (some mt)
    | _ => fail (.argumentOf 2 "setmetatable" "nil or table expected")
  if !(protection (← heap) id).isNil then fail .protectedMetatable
  modifyHeap (·.modifyTable id fun t => { t with metatable })
  return .table id

def getmetatable (args : Arguments) : Exec Value := do
  match args.get 0 with
  | .table id =>
    let h ← heap
    match (h.table id).metatable with
    | none => return .nil
    | some mt =>
      let guard := protection h id
      return if guard.isNil then .table mt else guard
  | _ => return .nil

/-! ## Loading -/

/-- Call a reader for pieces of text until it gives no more. -/
def readPieces (r : Reentry) (reader : Value) : Nat → String → Exec String
  | 0, _ => throw .exhausted
  | fuel + 1, text => do
    match (← r.call reader []).scalar with
    | .string piece =>
      if piece.isEmpty then return text else readPieces r reader fuel (text ++ piece)
    | .nil => return text
    | _ => fail .readerResult

/-- Load a text; one that is refused gives `nil` and the reason. -/
def load (r : Reentry) (args : Arguments) : Exec Value := do
  let code ← match args.get 0 with
    | .string s => pure s
    | v =>
      if v.isCallable then readPieces r v stepLimit ""
      else fail (.badArgument 1 "load" "string" v.typeName)
  let env := match args.get 3 with
    | .table id => some id
    | _ => none
  catchError (loadString code env (args.get 1).asString?) fun
    | .syntaxError e => return .ofList [.nil, .string e.display]
    | e => failWith e

/-- Wait; all that can be seen of it is that a cancelled script does not go on. -/
def sleep (args : Arguments) : Exec Value := do
  let _ ← args.number 0 "sleep"
  safepoint
  return .void

end Library

/-- Call a library function; `caller` is the span of the call. -/
def Builtin.run (r : Reentry) (caller : Option Span) (args : Arguments) : Builtin → Exec Value
  | print => Library.print r args
  | typeOf => do return .string (← args.any 0 "type").typeName
  | tostring => do return .string (← Library.textOf r (← args.any 0 "tostring"))
  | tonumber => Library.tonumber args
  | pairs => Library.pairs r args
  | ipairs => Library.ipairs args
  | ipairsStep => Library.ipairsStep args
  | next => Library.next args
  | select => Library.select args
  | error => Library.error caller args
  | assert => Library.assert args
  | pcall => Library.pcall r args
  | rawget => Library.rawget args
  | rawset => Library.rawset args
  | rawequal => Library.rawequal args
  | rawlen => Library.rawlen args
  | setmetatable => Library.setmetatable args
  | getmetatable => Library.getmetatable args
  | unpack => Library.unpack args
  | load => Library.load r args
  | sleep => Library.sleep args
  | create => Library.create args
  | resume => Library.resume r args
  | status => Library.status args
  | running => Library.running
  | wrap => Library.wrap args
  | isyieldable => do return .boolean (← Library.isyieldable)

namespace Library

open Exec

/-- The functions of the global table, in order. -/
def globalFunctions : List Builtin :=
  [.print, .typeOf, .tostring, .tonumber, .pairs, .ipairs, .next, .select, .error, .assert, .pcall,
    .rawget, .rawset, .rawequal, .rawlen, .setmetatable, .getmetatable, .unpack, .load, .sleep]

/-- The functions of the `coroutine` table, in order. -/
def coroutineFunctions : List Native :=
  [.builtin .create, .builtin .resume, .yield, .builtin .status, .builtin .running, .builtin .wrap,
    .builtin .isyieldable]

/-- Add native functions to a table under their names. -/
def addFunctions (table : TableId) : List Native → Exec Unit
  | [] => return
  | n :: rest => do
    setField table n.name (← newCallback n)
    addFunctions table rest

/-- Install the library in a global table. -/
def install (globals : TableId) : Exec Unit := do
  addFunctions globals (globalFunctions.map Native.builtin)
  let id : TableId := ⟨(← heap).tables.size⟩
  let coroutine ← newTable {}
  addFunctions id coroutineFunctions
  setField globals "coroutine" coroutine
  setField globals "_G" (.table globals)
  setField globals "_VERSION" (.string versionText)

end Library

end LuaMachine
