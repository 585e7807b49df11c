import LuaMachine.Console.Session

/-!
# The prompt

Code that is typed in line by line. Lines are gathered until they make a statement; an expression is
evaluated and its value shown, and a leading equals sign stands for `return`. A line that starts
with a dot is a command to the prompt itself.
-/

namespace LuaMachine

/-- What a line of input gives. -/
inductive Reply where
  /-- the statement is not complete -/
  | incomplete
  | nothing
  | value (text : String)
  | error (text : String)
deriving DecidableEq, Repr

/-- Whether more text could make an error go away. -/
def ConsoleError.isPremature : ConsoleError → Bool
  | script e => e.isPremature
  | _ => false

/-- Whether to go on reading lines. -/
inductive Prompting where
  | goOn
  | stop
deriving DecidableEq, Repr

namespace Session

/-- The source that lines of input stand for. -/
def sourceOf (input : String) : String :=
  match input.toList with
  | '=' :: rest => "return " ++ String.ofList rest
  | _ => input

/-- The code to run for a source: the source as an expression if it is one, else the source itself.
The error is that of the source. -/
def codeFor (source : String) : Session String := do
  let expression := "return " ++ source
  match ← observe (hosting (Engine.validate expression)) with
  | .ok _ => return expression
  | .error _ =>
    hosting (Engine.validate source)
    return source

/-- Take a line of code. -/
def feed (line : String) : Session Reply := do
  let c ← get
  let input := if c.pending.isEmpty then line else c.pending ++ "\n" ++ line
  let source := sourceOf input
  set { c with pending := "" }
  if Engine.isBlank source then return .nothing
  match ← observe (codeFor source) with
  | .error e =>
    if e.isPremature then
      modify fun c => { c with pending := input }
      return .incomplete
    else return .error e.message
  | .ok code => match ← observe (eval code) with
    | .ok (.tuple []) => return .nothing
    | .ok v => return .value ((← heap).display v)
    | .error e => return .error e.message

/-- Whether the prompt waits for the rest of a statement. -/
def isContinuing : Session Bool := do return !(← get).pending.isEmpty

/-- Drop the lines of a statement that is not complete. -/
def cancel : Session Unit := modify fun c => { c with pending := "" }

def helpLines : List String :=
  ["REPL Commands:",
    "  .help     - Show this help message",
    "  .stats    - Show engine statistics",
    "  .reset    - Forget every global",
    "  .exit     - Exit the REPL",
    "  =expr     - Print the value of expr"]

/-- Obey a command to the prompt. -/
def command (name : String) : Session Unit := do
  if name == ".help" then helpLines.forM showLine
  else if name == ".stats" then showLine (← statistics)
  else if name == ".reset" then hosting Engine.reset
  else
    showLine s!"Unknown command: {name}"
    showLine "Type .help for available commands"

/-- Take a line of input: code, a command or the word that ends the session. Within a statement
every line is code. -/
def prompt (line : String) : Session Prompting := do
  let word := String.ofList (Text.trimBlanks line.toList)
  let fresh := !(← isContinuing)
  if fresh && (word == "exit" || word == "quit" || word == ".exit") then return .stop
  else if fresh && word.startsWith "." then
    command word
    return .goOn
  else
    match ← feed line with
    | .value text => showLine text
    | .error text => complain text
    | .incomplete | .nothing => return .goOn
    return .goOn

/-- Take lines of input until the session ends. -/
def prompts : List String → Session Unit
  | [] => return
  | line :: rest => do
    match ← prompt line with
    | .stop => return
    | .goOn => prompts rest

/-- What a session shows first. -/
def greeting : Session Unit := do
  showLine versionText
  showLine "Type Lua code, .help for commands, or exit to quit."

end Session

/-! ## Lines of input -/

/-- Take back the character before each backspace. -/
def eraseBack (cs : List Char) : List Char :=
  (cs.foldl (fun acc c => if c == '\x08' then acc.tail else c :: acc) []).reverse

/-- The line without the carriage return at its end. -/
def withoutReturn (cs : List Char) : List Char :=
  if cs.getLast? == some '\r' then cs.dropLast else cs

/-- The lines of an input. Only a line that is ended loses a carriage return, and an empty last line
is none. -/
def inputLines (input : String) : List String :=
  let pieces := input.splitOn "\n"
  let ended := pieces.dropLast.map fun s => withoutReturn s.toList
  let last := (pieces.getLastD "").toList
  (ended ++ if last.isEmpty then [] else [last]).map fun cs => String.ofList (eraseBack cs)

end LuaMachine
