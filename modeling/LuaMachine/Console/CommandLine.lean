/-!
# The command line

What the arguments of the program ask for. Options come in any order before `--`, each at most once;
an option's value follows it, or is joined to it. What follows `--` is for the script.
-/

namespace LuaMachine

/-- The arguments of the program. -/
structure CommandLine where
  /-- the script or dump to run -/
  file : Option String := none
  /-- the arguments of the script -/
  args : List String := []
  /-- code to evaluate -/
  eval : Option String := none
  repl : Bool := false
  config : Option String := none
  /-- where to write the dump of the script -/
  dump : Option String := none
  base64 : Bool := false
  stats : Bool := false
  classicErrors : Bool := false
  perf : Bool := false
deriving DecidableEq, Repr, Inhabited

namespace CommandLine

/-- Whether the program prompts for code. -/
def prompts (c : CommandLine) : Bool :=
  c.repl && c.file.isNone && c.eval.isNone && c.dump.isNone

/-- The options without a value. -/
inductive Flag where
  | repl | base64 | stats | classicErrors | perf
deriving DecidableEq, Repr

/-- The options with a value. -/
inductive Setting where
  | eval | config | dump
deriving DecidableEq, Repr

/-- An option. -/
inductive Switch where
  | flag (f : Flag)
  | setting (s : Setting)
  | help
  | version
deriving DecidableEq, Repr

def Switch.ofLong? : String → Option Switch
  | "repl" => some (.flag .repl)
  | "base64" => some (.flag .base64)
  | "stats" => some (.flag .stats)
  | "classic-errors" => some (.flag .classicErrors)
  | "perf" => some (.flag .perf)
  | "eval" => some (.setting .eval)
  | "config" => some (.setting .config)
  | "dump" => some (.setting .dump)
  | "help" => some .help
  | "version" => some .version
  | _ => none

def Switch.ofShort? : Char → Option Switch
  | 'r' => some (.flag .repl)
  | 'e' => some (.setting .eval)
  | 'c' => some (.setting .config)
  | 'h' => some .help
  | 'V' => some .version
  | _ => none

/-- Set a flag; refused when it is set. -/
def raise? (c : CommandLine) : Flag → Option CommandLine
  | .repl => if c.repl then none else some { c with repl := true }
  | .base64 => if c.base64 then none else some { c with base64 := true }
  | .stats => if c.stats then none else some { c with stats := true }
  | .classicErrors => if c.classicErrors then none else some { c with classicErrors := true }
  | .perf => if c.perf then none else some { c with perf := true }

/-- Give an option its value; refused when it has one. A path is not empty. -/
def assign? (c : CommandLine) : Setting → String → Option CommandLine
  | .eval, v => if c.eval.isSome then none else some { c with eval := some v }
  | .config, v => if c.config.isSome || v.isEmpty then none else some { c with config := some v }
  | .dump, v => if c.dump.isSome || v.isEmpty then none else some { c with dump := some v }

/-- What the arguments ask for. -/
inductive Request where
  | run (c : CommandLine)
  | help
  | version
deriving DecidableEq, Repr

/-- What is read so far, and what is left to do. -/
inductive Progress where
  | done (c : CommandLine)
  /-- an option takes its value from the next argument -/
  | wants (c : CommandLine) (s : Setting)
  | stop (r : Request)
deriving DecidableEq, Repr

/-- Whether an argument is an option or the mark behind the last option. -/
def isOption (arg : String) : Bool := arg.startsWith "-" && arg != "-"

/-- Read options of one letter that share an argument. The rest of the argument, behind an equals
sign or not, is the value of an option that takes one. -/
def readLetters (c : CommandLine) : List Char → Option Progress
  | [] => some (.done c)
  | letter :: rest => match Switch.ofShort? letter with
    | some (.flag f) => match c.raise? f with
      | some c => c.readLetters rest
      | none => none
    | some (.setting s) => match rest with
      | [] => some (.wants c s)
      | '=' :: v => (c.assign? s (String.ofList v)).map .done
      | v => (c.assign? s (String.ofList v)).map .done
    | some .help => some (.stop .help)
    | some .version => some (.stop .version)
    | none => none

/-- Read an option with a long name; its value may follow an equals sign. -/
def readLong (c : CommandLine) (body : List Char) : Option Progress :=
  let name := String.ofList (body.takeWhile (· != '='))
  let value := (body.dropWhile (· != '=')).tail?.map String.ofList
  match Switch.ofLong? name, value with
  | some (.flag f), none => (c.raise? f).map .done
  | some (.setting s), some v => (c.assign? s v).map .done
  | some (.setting s), none => some (.wants c s)
  | some .help, none => some (.stop .help)
  | some .version, none => some (.stop .version)
  | _, _ => none

/-- Read the arguments. The option that takes its value from the next argument, if there is one, does
not take an option. -/
def read? (c : CommandLine) (wanted : Option Setting) : List String → Option Request
  | [] => if wanted.isSome then none else some (.run c)
  | arg :: rest => match wanted with
    | some s =>
      if isOption arg then none else (c.assign? s arg).bind fun c => c.read? none rest
    | none =>
      if arg == "--" then some (.run { c with args := rest })
      else if isOption arg then
        let body := arg.toList.drop 1
        match if body.head? == some '-' then c.readLong body.tail else c.readLetters body with
        | some (.done c) => c.read? none rest
        | some (.wants c s) => c.read? (some s) rest
        | some (.stop r) => some r
        | none => none
      else if c.file.isSome || arg.isEmpty then none
      else { c with file := some arg }.read? none rest

/-- What the arguments ask for; nothing if they break a rule. Only a dump can be in base64. -/
def parse? (args : List String) : Option Request :=
  match ({} : CommandLine).read? none args with
  | some (.run c) => if c.base64 && c.dump.isNone then none else some (.run c)
  | request => request

end CommandLine

end LuaMachine
