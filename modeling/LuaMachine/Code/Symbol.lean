/-!
# Symbols

What a name of the source text stands for once it is resolved: a slot of the running function, a
variable captured from an enclosing one, or a field of the environment.
-/

namespace LuaMachine

/-- The name of the variable that holds the global table. -/
def envName : String := "_ENV"

/-- A resolved name. -/
inductive Symbol where
  /-- a local variable, by its slot -/
  | local (name : String) (slot : Nat)
  /-- a captured variable, by its place among the captures of the function -/
  | upvalue (name : String) (index : Nat)
  /-- a field of an environment -/
  | global (name : String) (env : Symbol)
  /-- the global table of the script -/
  | defaultEnv
deriving DecidableEq, Repr, Inhabited

namespace Symbol

def name : Symbol → String
  | .local n _ | .upvalue n _ | .global n _ => n
  | .defaultEnv => envName

/-- The kind of a symbol, as debuggers show it. -/
def kind : Symbol → String
  | .local .. => "local"
  | .upvalue .. => "upvalue"
  | .global .. => "global"
  | .defaultEnv => "default_env"

def display : Symbol → String
  | .local n i => s!"local:{n}#{i}"
  | .upvalue n i => s!"upvalue:{n}#{i}"
  | .global n env => s!"{display env}.{n}"
  | .defaultEnv => "default_env"

end Symbol

end LuaMachine
