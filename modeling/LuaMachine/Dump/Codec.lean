import LuaMachine.Dump.Error
import LuaMachine.Number.Basic
import LuaMachine.Text.Utf8

/-!
# The binary codec of dumps

Bytes, integers, numbers and strings as dumps hold them. An integer that fits in a byte with sign is
that byte, unless it is one of two marks: `0x7f` announces sixteen bits and `0x7e` thirty-two, least
byte first. A string is named by its number in the order of first use; at its first use its length
and its bytes follow.

`Writer` and `Reader` hold what is written or still to be read, and the strings met so far. What was
written before an error stays written, and a read that finds too few bytes uses them up.
-/

namespace LuaMachine.Dump

/-- The mark before an integer of sixteen bits. -/
def markShort : UInt8 := 0x7f

/-- The mark before an integer of thirty-two bits. -/
def markLong : UInt8 := 0x7e

/-- The bytes of an integer modulo `256 ^ n`, least first. -/
def littleEndian : Nat → Int → List UInt8
  | 0, _ => []
  | n + 1, v => (v % 256).toNat.toUInt8 :: littleEndian n (v / 256)

/-- The value of bytes, least first. -/
def valueOf : List UInt8 → Nat
  | [] => 0
  | b :: rest => b.toNat + 256 * valueOf rest

/-- The value of bytes, least first, where the highest bit is a sign. -/
def signedValueOf (bytes : List UInt8) : Int :=
  let v := valueOf bytes
  let modulus := Nat.pow 256 bytes.length
  if 2 * v < modulus then v else (v : Int) - modulus

/-- The bytes of an integer of thirty-two bits. -/
def intBytes (v : Int) : List UInt8 :=
  if -128 ≤ v && v ≤ 127 && v != 127 && v != 126 then littleEndian 1 v
  else if -32768 ≤ v && v ≤ 32767 then markShort :: littleEndian 2 v
  else markLong :: littleEndian 4 v

/-! ## Writing -/

/-- The bytes written so far and the strings they name. -/
structure Writer where
  bytes : Array UInt8 := #[]
  strings : List String := []
deriving DecidableEq, Repr, Inhabited

/-- A write; what it has put down before it fails stays there. -/
abbrev Write := EStateM DumpError Writer

namespace Write

/-- The outcome of a write whose writer is of no use after an error. -/
def run (write : Write α) (w : Writer) : Except DumpError (α × Writer) :=
  match write w with
  | .ok a w => .ok (a, w)
  | .error e _ => .error e

def bytes (bs : List UInt8) : Write Unit :=
  modify fun w => { w with bytes := w.bytes ++ bs }

def u8 (b : UInt8) : Write Unit := bytes [b]

def int (v : Int) : Write Unit := bytes (intBytes v)

/-- A size; sizes of more than thirty-one bits are refused. -/
def nat (n : Nat) : Write Unit :=
  if n < 2147483648 then int n else throw (.malformed s!"value {n} is too large to dump")

def bool (b : Bool) : Write Unit := u8 (if b then 1 else 0)

def number (n : Number) : Write Unit := bytes (littleEndian 8 n.bits.toNat)

def string (s : String) : Write Unit := do
  let strings := (← get).strings
  match strings.findIdx? (· == s) with
  | some i => nat i
  | none =>
    modify fun w => { w with strings := strings ++ [s] }
    nat strings.length
    nat s.utf8ByteSize
    bytes (Text.Utf8.encode s)

/-- Several items, one after the other. -/
def each (write : α → Write Unit) : List α → Write Unit
  | [] => return ()
  | a :: rest => do
    write a
    each write rest

end Write

/-! ## Reading -/

/-- The bytes still to be read and the strings met so far. -/
structure Reader where
  bytes : List UInt8
  strings : Array String := #[]
deriving DecidableEq, Repr, Inhabited

/-- A read; what a failed read has used up stays used up. -/
abbrev Read := EStateM DumpError Reader

namespace Read

def bytes (n : Nat) : Read (List UInt8) := do
  let r ← get
  let taken := r.bytes.take n
  set { r with bytes := r.bytes.drop n }
  if taken.length < n then throw .unexpectedEof
  return taken

def u8 : Read UInt8 := do
  match ← bytes 1 with
  | [b] => return b
  | _ => throw .unexpectedEof

def int : Read Int := do
  let first ← u8
  if first == markShort then return signedValueOf (← bytes 2)
  else if first == markLong then return signedValueOf (← bytes 4)
  else return signedValueOf [first]

def nat : Read Nat := do
  let v ← int
  if v < 0 then throw (.malformed s!"negative size {v}")
  return v.toNat

def bool : Read Bool := do return (← u8) != 0

def number : Read Number := do return ⟨(valueOf (← bytes 8)).toUInt64⟩

def string : Read String := do
  let i ← nat
  let known := (← get).strings
  match known[i]? with
  | some s => return s
  | none =>
    if i > known.size then throw (.stringMapFailure i)
    let n ← nat
    match Text.Utf8.decode? (← bytes n) with
    | some s =>
      modify fun r => { r with strings := r.strings.push s }
      return s
    | none => throw .invalidUtf8

/-- A number of items, one after the other. -/
def each (read : Read α) : Nat → Read (List α)
  | 0 => return []
  | n + 1 => do
    let a ← read
    return a :: (← each read n)

end Read

end LuaMachine.Dump
