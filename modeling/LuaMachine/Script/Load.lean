import LuaMachine.Code.Compile
import LuaMachine.Dump.Function
import LuaMachine.Machine.World
import LuaMachine.Text.Encoding
import LuaMachine.Text.Layout
import LuaMachine.Text.Utf8

/-!
# Loading and dumping

How the running script takes in code: a source text is compiled, a dump is decoded, and either
becomes a new source and a function whose only variable is its environment. A dump also comes as a
text, in base64 under a header of its own.
-/

namespace LuaMachine

/-- What a text that holds a dump starts with. -/
def dumpHeader : String := "LanternDump_b64::"

namespace Script

/-- Add a source with the code that belongs to it, and tell the debugger. -/
def addSource (s : Script) (code : Segment) (source : SourceText) : Script :=
  { s with
    code
    sources := s.sources.push source
    debug := if s.debug.isAttached then s.debug.sourceLoaded source code.listing else s.debug }

end Script

namespace Exec

open Exec

/-- The function at an entry. Its environment is the given table, or else the global one. -/
def loaded (entry : Nat) (hasEnv : Bool) (env : Option TableId) : Exec Value := do
  let s ← script
  let owner := (← get).active
  if hasEnv then
    let cell ← newCell (.table (env.getD s.globals))
    newClosure { owner, entry, upvalues := #[(envName, cell)] }
  else newClosure { owner, entry, upvalues := #[] }

/-- Compile a source text. -/
def compile (code : String) (env : Option TableId) (name : Option String) (kind : HeaderKind) :
    Exec Value := do
  modifyScript fun s => { s with counters := s.counters.countCompilation }
  let s ← script
  let owner := (← get).active
  let id := s.sources.size
  let name := name.getD s!"chunk_{id}"
  match s.code.compile { chunk := name, source := id, kind } code with
  | .error e => failWith (.syntaxError e)
  | .ok (chunk, segment) =>
    modifyScript fun s => s.addSource segment { id, name, code, owner, spans := chunk.spans }
    loaded chunk.entry chunk.hasEnv env

/-- Decode a dump. -/
def loadDump (bytes : List UInt8) (env : Option TableId) (name : Option String) : Exec Value := do
  let s ← script
  let owner := (← get).active
  let id := s.sources.size
  match s.code.undump bytes id with
  | .error e => failWith (.dump e)
  | .ok (f, segment) =>
    let name := name.getD s!"dump_{id}"
    let code := s!"-- This script was decoded from a binary dump - {name}"
    modifyScript fun s => s.addSource segment { id, name, code, owner, spans := f.spans }
    loaded f.entry f.hasEnv env

/-- Load a text: a source, or a dump under its header. -/
def loadString (code : String) (env : Option TableId) (name : Option String) : Exec Value :=
  let cs := code.toList
  if dumpHeader.toList.isPrefixOf cs then
    match Text.Base64.decode? (Text.trimBlanks (cs.drop dumpHeader.length)) with
    | some bytes => loadDump bytes env name
    | none => failWith (.dump (.malformed "invalid base64 dump"))
  else compile code env name .chunk

/-- Load bytes: a dump, or a source in UTF-8. -/
def loadBytes (bytes : List UInt8) (env : Option TableId) (name : Option String) : Exec Value :=
  if Dump.isDump bytes then loadDump bytes env name
  else match Text.Utf8.decode? bytes with
    | some code => loadString code env name
    | none => failWith (.io .invalidData)

/-- Load the text of a function's body, whose arguments are `...`. -/
def loadFunction (code : String) (env : Option TableId) (name : Option String) : Exec Value :=
  compile code env name .function

/-- The dump of a function of the running script. -/
def dump (f : Value) : Exec (List UInt8) := do
  match f with
  | .function id => match (← heap).closure? id with
    | none => failWith (.dump .notAFunction)
    | some c =>
      if c.owner != (← get).active then fail .foreignDump
      let hasEnv ← match c.shape with
        | .none => pure false
        | .environment => pure true
        | .closure => failWith (.dump .unsupportedUpvalues)
      match Dump.ofFunction (← script).code c.entry hasEnv with
      | .ok bytes => return bytes
      | .error e => failWith (.dump e)
  | _ => failWith (.dump .notAFunction)

/-- The dump of a function as a text that can be loaded. -/
def dumpText (f : Value) : Exec String := do
  return dumpHeader ++ String.ofList (Text.Base64.encode (← dump f))

end Exec

end LuaMachine
