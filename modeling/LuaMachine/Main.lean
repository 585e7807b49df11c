import LuaMachine.Console.Program

/-!
# The executable

Reads the arguments, the files they name and the standard input, and shows what the program does
with them.
-/

namespace LuaMachine.Terminal

/-- The outcome of an operation on a file. -/
def attemptFile (x : IO α) : IO (Except IoError α) := do
  try
    return .ok (← x)
  catch e =>
    return .error (match e with
      | .noFileOrDirectory .. => .notFound
      | .inappropriateType .. => .isADirectory
      | _ => .notADirectory)

/-- Read the files that a command line names. -/
def readFiles (c : CommandLine) : IO (String → Except IoError (List UInt8)) := do
  let paths := c.config.toList ++ c.file.toList
  let contents ← paths.mapM fun (path : String) => attemptFile (do return (← IO.FS.readBinFile path).toList)
  let found := paths.zip contents
  return fun path => ((found.find? (·.1 == path)).map (·.2)).getD (.error .notFound)

/-- Write what a plan says, and show its outcome. -/
def carryOut (p : Plan) : IO UInt32 := do
  let written ← match p.write with
    | some (path, bytes) => attemptFile (IO.FS.writeBinFile path (ByteArray.mk bytes.toArray))
    | none => pure (.ok ())
  let outcome := p.outcome written
  outcome.stdout.forM IO.println
  outcome.stderr.forM IO.eprintln
  return UInt32.ofNat outcome.code

/-- Go on with a session and show what it has to show. -/
def advance (x : Session α) (c : Console) : IO (Option α × Console) := do
  let (result, c) := match x c with
    | .ok a c => (some a, c)
    | .error e c => (none, { c with complaints := c.complaints.push e.message })
  c.output.forM IO.println
  c.complaints.forM IO.eprintln
  return (result, { c with output := #[], complaints := #[] })

/-- Prompt for lines until the input or the session ends. -/
partial def converse (input : IO.FS.Stream) (c : Console) : IO Console := do
  let text ← input.getLine
  match inputLines text with
  | line :: _ => match ← advance (Session.prompt line) c with
    | (some .goOn, c) => converse input c
    | (_, c) => return c
  | [] => return c

/-- A session at the prompt. -/
def promptSession (c : CommandLine) (config : EngineConfig) : IO Unit := do
  let (_, console) ← advance Session.greeting (Console.create config)
  let console ← converse (← IO.getStdin) console
  if c.stats then
    let _ ← advance Program.report console

end LuaMachine.Terminal

open LuaMachine

def main (args : List String) : IO UInt32 := do
  match CommandLine.parse? args with
  | some (.run c) =>
    let read ← Terminal.readFiles c
    match c.prompts, Console.configure c read with
    | true, .ok config =>
      Terminal.promptSession c config
      return 0
    | _, _ => Terminal.carryOut (Program.plan args read [])
  | _ => Terminal.carryOut (Program.plan args (fun _ => .error .notFound) [])
