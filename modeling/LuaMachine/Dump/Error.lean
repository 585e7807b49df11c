import LuaMachine.Text.Quoted

/-!
# Faults of dumps

Why a function cannot be written as a dump, or a dump cannot be read.
-/

namespace LuaMachine

/-- Why a dump cannot be written or read. -/
inductive DumpError where
  | badHeader
  | versionMismatch (found expected : UInt8)
  /-- a string is named by a number that no earlier string has -/
  | stringMapFailure (index : Nat)
  | unexpectedEof
  | invalidOpcode (tag : UInt8)
  | invalidTag (tag : UInt8)
  | invalidUtf8
  /-- the function captures variables other than its environment -/
  | unsupportedUpvalues
  | notAFunction
  | malformed (detail : String)
deriving DecidableEq, Repr

namespace DumpError

/-- A byte as two hexadecimal digits behind `0x`. -/
def byteText (b : UInt8) : String :=
  let ds := Text.hexDigits b.toNat
  String.ofList (['0', 'x'] ++ List.replicate (2 - ds.length) '0' ++ ds)

def message : DumpError → String
  | badHeader => "stream is not a valid binary chunk"
  | versionMismatch found expected =>
    s!"binary chunk version {found.toNat} is not supported (expected {expected.toNat})"
  | stringMapFailure index => s!"string map failure: index {index} is out of range"
  | unexpectedEof => "unexpected end of binary chunk"
  | invalidOpcode tag => s!"invalid opcode {byteText tag} in binary chunk"
  | invalidTag tag => s!"invalid tag {byteText tag} in binary chunk"
  | invalidUtf8 => "invalid utf-8 in binary chunk string table"
  | unsupportedUpvalues => "cannot dump a function which has upvalues other than _ENV"
  | notAFunction => "only script functions can be dumped"
  | malformed detail => s!"malformed binary chunk: {detail}"

/-- The kind of a fault. -/
def kind : DumpError → String
  | badHeader => "BadHeader"
  | versionMismatch .. => "VersionMismatch"
  | stringMapFailure .. => "StringMapFailure"
  | unexpectedEof => "UnexpectedEof"
  | invalidOpcode .. => "InvalidOpcode"
  | invalidTag .. => "InvalidTag"
  | invalidUtf8 => "InvalidUtf8"
  | unsupportedUpvalues => "UnsupportedUpvalues"
  | notAFunction => "NotAFunction"
  | malformed .. => "Malformed"

end DumpError

end LuaMachine
