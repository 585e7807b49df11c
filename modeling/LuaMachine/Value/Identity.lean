/-!
# Identities

Tables, closures, variables, coroutines, host objects and scripts are compared by identity. Each
kind has its own type of identity, a position in the store that holds the things of that kind.
-/

namespace LuaMachine

/-- The identity of a table. -/
structure TableId where
  index : Nat
deriving DecidableEq, Hashable, Repr, Inhabited

/-- The identity of a variable's cell. -/
structure CellId where
  index : Nat
deriving DecidableEq, Hashable, Repr, Inhabited

/-- The identity of a script function. -/
structure ClosureId where
  index : Nat
deriving DecidableEq, Hashable, Repr, Inhabited

/-- The identity of a coroutine. -/
structure CoroutineId where
  index : Nat
deriving DecidableEq, Hashable, Repr, Inhabited

/-- The identity of a host object. -/
structure ObjectId where
  index : Nat
deriving DecidableEq, Hashable, Repr, Inhabited

/-- The identity of a script instance. -/
structure ScriptId where
  index : Nat
deriving DecidableEq, Hashable, Repr, Inhabited

end LuaMachine
