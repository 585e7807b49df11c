import LuaMachine.Text.Digest

/-!
# The function cache

Functions that an engine defines in each of its script instances. A function is known by its name; a
digest of its text tells whether an instance has the current version.
-/

namespace LuaMachine

/-- A named function. -/
structure CachedFunction where
  name : String
  /-- the digest of the text -/
  hash : String
  code : String
deriving DecidableEq, Repr, Inhabited

namespace CachedFunction

def ofSource (name code : String) : CachedFunction := { name, hash := Text.Digest.sha256 code, code }

/-- The statement that defines a function with a given body. -/
def wrap (name code : String) : String := s!"function {name}(...)\n{code}\nend"

def definition (f : CachedFunction) : String := wrap f.name f.code

end CachedFunction

/-- A cached function and whether this version of it has been executed. -/
structure CacheSlot where
  function : CachedFunction
  executed : Bool := false
deriving DecidableEq, Repr

/-- The functions of an engine, in the order in which their names were first loaded. -/
structure FunctionCache where
  slots : List CacheSlot := []
deriving Repr, Inhabited

namespace FunctionCache

def slot? (c : FunctionCache) (name : String) : Option CacheSlot :=
  c.slots.find? (·.function.name == name)

def get? (c : FunctionCache) (name : String) : Option CachedFunction :=
  (c.slot? name).map (·.function)

def hashOf? (c : FunctionCache) (name : String) : Option String := (c.get? name).map (·.hash)

/-- Add a function, or replace the one of that name in its place. The same version stays executed. -/
def insert (c : FunctionCache) (f : CachedFunction) : FunctionCache :=
  match c.slot? f.name with
  | some old =>
    let new : CacheSlot := ⟨f, old.executed && old.function.hash == f.hash⟩
    ⟨c.slots.map fun s => if s.function.name == f.name then new else s⟩
  | none => ⟨c.slots ++ [⟨f, false⟩]⟩

/-- Whether a version of a function has been executed. -/
def hasExecuted (c : FunctionCache) (name hash : String) : Bool :=
  match c.slot? name with
  | some s => s.function.hash == hash && s.executed
  | none => false

/-- Note that a version of a function is executed; another version is left alone. -/
def markExecuted (c : FunctionCache) (name hash : String) : FunctionCache :=
  ⟨c.slots.map fun s =>
    if s.function.name == name && s.function.hash == hash then { s with executed := true } else s⟩

def remove (c : FunctionCache) (name : String) : FunctionCache :=
  ⟨c.slots.filter (·.function.name != name)⟩

def functions (c : FunctionCache) : List CachedFunction := c.slots.map (·.function)

def names (c : FunctionCache) : List String := c.functions.map (·.name)

def size (c : FunctionCache) : Nat := c.slots.length

def isEmpty (c : FunctionCache) : Bool := c.slots.isEmpty

end FunctionCache

end LuaMachine
