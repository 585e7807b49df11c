import LuaMachine.Code.Symbol

/-!
# Scopes

The names that are visible while a function is compiled. Each function has slots for its locals, a
stack of blocks that say which names are visible, and a list of the variables it captures from the
functions around it. Leaving a block hides its names and keeps their slots, so that every
declaration has a slot of its own.

A name that no function declares is a field of the environment, which is itself a variable.
-/

namespace LuaMachine

/-- What is known of one function while it is compiled. -/
structure FunctionScope where
  /-- the names of the slots -/
  locals : List String := []
  /-- the visible declarations of each open block, innermost block and latest declaration first -/
  blocks : List (List (String × Nat)) := []
  /-- the captured variables and what they are in the enclosing function -/
  upvalues : List (String × Symbol) := []
  isVararg : Bool := false
deriving DecidableEq, Repr, Inhabited

namespace FunctionScope

/-- A function at its start: one block without names. -/
def start (isVararg : Bool) : FunctionScope := { blocks := [[]], isVararg }

/-- The slot of the latest visible declaration of a name. -/
def findLocal? (f : FunctionScope) (name : String) : Option Nat :=
  (f.blocks.flatten.find? (·.1 == name)).map (·.2)

/-- The place of a name among the captures. -/
def findUpvalue? (f : FunctionScope) (name : String) : Option Nat :=
  f.upvalues.findIdx? (·.1 == name)

/-- Capture one more variable; its place is the number of captures before. -/
def addUpvalue (f : FunctionScope) (name : String) (capture : Symbol) : FunctionScope :=
  { f with upvalues := f.upvalues ++ [(name, capture)] }

def captures (f : FunctionScope) : List Symbol := f.upvalues.map (·.2)

/-- Declare a name in the innermost block, in a new slot. -/
def declare (f : FunctionScope) (name : String) : FunctionScope :=
  { f with
    locals := f.locals ++ [name]
    blocks := match f.blocks with
      | block :: outer => ((name, f.locals.length) :: block) :: outer
      | [] => [] }

def pushBlock (f : FunctionScope) : FunctionScope := { f with blocks := [] :: f.blocks }

def popBlock (f : FunctionScope) : FunctionScope := { f with blocks := f.blocks.tail }

end FunctionScope

/-- The functions being compiled, innermost first. -/
structure ScopeStack where
  functions : List FunctionScope
deriving DecidableEq, Repr, Inhabited

namespace ScopeStack

/-- The scopes of a chunk, which captures its environment unless it is to go without. -/
def start (env : Bool) : ScopeStack :=
  let root := FunctionScope.start true
  ⟨[if env then root.addUpvalue envName .defaultEnv else root]⟩

def current (s : ScopeStack) : FunctionScope := s.functions.headD {}

def modifyCurrent (s : ScopeStack) (f : FunctionScope → FunctionScope) : ScopeStack :=
  match s.functions with
  | g :: outer => ⟨f g :: outer⟩
  | [] => s

def pushFunction (s : ScopeStack) (isVararg : Bool) : ScopeStack :=
  ⟨FunctionScope.start isVararg :: s.functions⟩

def popFunction (s : ScopeStack) : ScopeStack := ⟨s.functions.tail⟩

def pushBlock (s : ScopeStack) : ScopeStack := s.modifyCurrent (·.pushBlock)

def popBlock (s : ScopeStack) : ScopeStack := s.modifyCurrent (·.popBlock)

/-- The slot that the next declaration will have. -/
def nextSlot (s : ScopeStack) : Nat := s.current.locals.length

def declare (s : ScopeStack) (name : String) : ScopeStack := s.modifyCurrent (·.declare name)

/-- What a name is in the innermost of these functions. A variable of an outer function is captured
by every function on the way to it. -/
def resolveIn (name : String) : List FunctionScope → Option Symbol × List FunctionScope
  | [] => (none, [])
  | f :: outer =>
    match f.findLocal? name with
    | some slot => (some (.local name slot), f :: outer)
    | none => match f.findUpvalue? name with
      | some i => (some (.upvalue name i), f :: outer)
      | none => match resolveIn name outer with
        | (some capture, outer) =>
          (some (.upvalue name f.upvalues.length), f.addUpvalue name capture :: outer)
        | (none, outer) => (none, f :: outer)

/-- What a name stands for here. -/
def resolve (s : ScopeStack) (name : String) : Symbol × ScopeStack :=
  match resolveIn name s.functions with
  | (some symbol, fs) => (symbol, ⟨fs⟩)
  | (none, fs) =>
    if name == envName then (.global name .defaultEnv, ⟨fs⟩)
    else match resolveIn envName fs with
      | (some env, fs) => (.global name env, ⟨fs⟩)
      | (none, fs) => (.global name .defaultEnv, ⟨fs⟩)

end ScopeStack

end LuaMachine
