import LuaMachine.Script.State
import LuaMachine.Toml.Reader

/-!
# Engine configuration

The settings of an engine, and how a configuration document gives them.
-/

namespace LuaMachine

/-- The settings of an engine. -/
structure EngineConfig where
  /-- refuse a second thread in a script instance -/
  checkThreadAccess : Bool := false
  /-- name places in errors by line only -/
  classicLocations : Bool := false
  /-- code to run before every code that is executed -/
  globalScript : Option String := none
  performanceCounters : Bool := false
  /-- how many idle instances are kept -/
  maxIdle : Nat := 32
deriving DecidableEq, Repr, Inhabited

namespace EngineConfig

/-- What a key of a document gives: the default where the key is missing, and nothing where its item
is of the wrong kind. -/
def field (rows : Toml.Rows) (key : String) (default : α) (read? : Toml.Item → Option α) :
    Option α :=
  match rows.get? key with
  | some item => read? item
  | none => some default

def boolean? : Toml.Item → Option Bool
  | .boolean b => some b
  | _ => none

def string? : Toml.Item → Option (Option String)
  | .string s => some (some s)
  | _ => none

def natural? : Toml.Item → Option Nat
  | .integer n => n.toNat?
  | _ => none

/-- The settings that a document gives. Keys that are no settings do not matter. -/
def ofText? (text : String) : Option EngineConfig := do
  let rows ← Toml.Document.ofText? text
  let base : EngineConfig := {}
  return {
    checkThreadAccess := ← field rows "check_thread_access" base.checkThreadAccess boolean?
    classicLocations := ← field rows "classic_error_locations" base.classicLocations boolean?
    globalScript := ← field rows "global_script" base.globalScript string?
    performanceCounters := ← field rows "performance_counters" base.performanceCounters boolean?
    maxIdle := ← field rows "max_idle_instances" base.maxIdle natural? }

/-- The options of the scripts of an engine with these settings. -/
def scriptOptions (c : EngineConfig) : ScriptOptions :=
  { checkThreadAccess := c.checkThreadAccess, classicLocations := c.classicLocations }

end EngineConfig

end LuaMachine
