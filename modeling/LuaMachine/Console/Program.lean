import LuaMachine.Console.Directory
import LuaMachine.Console.Prompt

/-!
# The program

What a command line makes the program do: dump a script, run one, evaluate code, or prompt for it;
the first of these that is asked for. `Program.plan` gives the file to write, if any, and the
outcome, which may depend on whether it could be written; `Program.run` carries that out in a
working directory.
-/

namespace LuaMachine

/-- What a run of the program ends with. -/
structure Outcome where
  code : Nat
  stdout : List String
  stderr : List String
deriving DecidableEq, Repr, Inhabited

/-- A run of the program up to the writing of a file. -/
structure Plan where
  write : Option (String × List UInt8)
  /-- the outcome, given what became of the writing -/
  outcome : Except IoError Unit → Outcome

/-- A run that writes no file. -/
def Plan.ofOutcome (o : Outcome) : Plan := ⟨none, fun _ => o⟩

namespace Program

def name : String := "lantern-lua"

def versionLine : String := s!"{name} 0.1.0"

/-- What is said about arguments that break a rule. -/
def misuseLines : List String :=
  ["error: invalid arguments", "", s!"Usage: {name} [OPTIONS] [FILE] [-- ARGS...]"]

/-- What is shown when nothing is asked for. -/
def usageLines : List String :=
  [versionText,
    "",
    "Usage:",
    "  lantern-lua <FILE> [-- ARGS...]   Run a script or dump",
    "  lantern-lua --eval <CODE>         Evaluate inline code",
    "  lantern-lua <FILE> --dump <OUT>   Precompile a script",
    "  lantern-lua --repl                Start interactive REPL",
    "",
    "Run 'lantern-lua --help' for more options."]

open Session

/-- Run a file and show the values that it returns, unless they are all `nil`. -/
def runScript (path : String) (content : Except IoError (List UInt8)) (args : List String) :
    Session Unit := do
  let values ← runFile path content args
  if values.any (!·.isNil) then
    let h ← heap
    showLine ("\t".intercalate (values.map h.display))

/-- Evaluate code and show its value, unless it is `nil`. -/
def evaluate (code : String) : Session Unit := do
  let v ← eval code
  if !v.isNil then showLine ((← heap).display v)

/-- Show the statistics. -/
def report : Session Unit := do
  showLine (← statistics)
  (← performanceLog).forM showLine

/-- What the command line asks for, dumps aside. -/
def act (c : CommandLine) (read : String → Except IoError (List UInt8)) (input : List String) :
    Session Unit := do
  match c.file, c.eval with
  | some path, _ => runScript path (read path) c.args
  | none, some code => evaluate code
  | none, none =>
    if c.prompts then
      greeting
      prompts input
    else if !c.stats then usageLines.forM showLine

/-- The outcome of a session. -/
def outcomeOf (x : Session Unit) (console : Console) : Outcome :=
  match x console with
  | .ok _ c => { code := 0, stdout := c.output.toList, stderr := c.complaints.toList }
  | .error e c =>
    { code := 1, stdout := c.output.toList
      stderr := c.complaints.toList ++ [s!"{name}: {e.message}"] }

/-- Write a dump, given what became of the writing. -/
def afterWriting (c : CommandLine) (path : String) (written : Except IoError Unit) :
    Session Unit := do
  match written with
  | .error e => throw (.file path e)
  | .ok _ => if c.stats then report

/-- What the program does for a command line. -/
def planRun (c : CommandLine) (read : String → Except IoError (List UInt8))
    (input : List String) : Plan :=
  match Console.configure c read with
  | .error e => .ofOutcome { code := 1, stdout := [], stderr := [s!"{name}: {e.message}"] }
  | .ok config =>
    let console := Console.create config
    match c.dump, c.file with
    | none, _ => .ofOutcome (outcomeOf (do act c read input; if c.stats then report) console)
    | some _, none => .ofOutcome (outcomeOf (throw .nothingToDump) console)
    | some out, some path => match dumpFile path (read path) c.base64 console with
      | .ok bytes console =>
        ⟨some (out, bytes), fun written => outcomeOf (afterWriting c out written) console⟩
      | .error e console => .ofOutcome (outcomeOf (throw e) console)

/-- What the program does for its arguments: `read` gives the content of files, and `input` is what
is typed in. -/
def plan (args : List String) (read : String → Except IoError (List UInt8))
    (input : List String) : Plan :=
  match CommandLine.parse? args with
  | none => .ofOutcome { code := 2, stdout := [], stderr := misuseLines }
  | some .help => .ofOutcome { code := 0, stdout := usageLines, stderr := [] }
  | some .version => .ofOutcome { code := 0, stdout := [versionLine], stderr := [] }
  | some (.run c) => planRun c read input

/-- Run the program in a working directory. -/
def run (args : List String) (d : Directory) (input : List String) : Outcome × Directory :=
  let p := plan args d.read input
  match p.write with
  | none => (p.outcome (.ok ()), d)
  | some (path, bytes) => match d.write path bytes with
    | .ok d => (p.outcome (.ok ()), d)
    | .error e => (p.outcome (.error e), d)

end Program

end LuaMachine
